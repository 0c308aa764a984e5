import RgcFifa.ServerInv

/-! Session ids as names of conduits: across all slave servers no two conduits have the
same id, and an id finds the conduit that has it. -/

namespace RgcFifa

namespace Server

/-- `c` is in the table of worker `k`. -/
def Live (k : Fin WORKERS) (c : TcpConduit) (s : Server) : Prop := ∃ i, s.slot k i = some c

variable {s : Server}

theorem exists_slot_worker {u : Int} (hu : 0 ≤ u) :
    ∃ (i : ℕ) (k : Fin WORKERS), u = i * WORKERS + k := by
  have hW : (WORKERS : Int) = 2 := rfl
  refine ⟨(u / 2).toNat, ⟨(u % 2).toNat, ?_⟩, ?_⟩
  · have hlt : (u % 2).toNat < 2 := by omega
    exact hlt
  · rw [hW]
    dsimp only
    omega

theorem uid_inj {i j : ℕ} {k l : Fin WORKERS}
    (h : (i : Int) * WORKERS + k = j * WORKERS + l) : k = l ∧ i = j := by
  have hk : (k : ℕ) < 2 := k.isLt
  have hl : (l : ℕ) < 2 := l.isLt
  have hW : (WORKERS : Int) = 2 := rfl
  rw [hW] at h
  exact ⟨Fin.ext (by omega), by omega⟩

theorem Inv.uid (h : s.Inv) {k : Fin WORKERS} {i : ℕ} {c : TcpConduit} (hc : s.slot k i = some c) :
    c.uid = i * WORKERS + k := by
  rw [(h.worker k).table.uid i c hc, h.idx]

theorem Inv.slot_iff_live (h : s.Inv) (i : ℕ) (k : Fin WORKERS) (c : TcpConduit) :
    s.slot k i = some c ↔ s.Live k c ∧ c.uid = i * WORKERS + k := by
  constructor
  · intro hc
    exact ⟨⟨i, hc⟩, h.uid hc⟩
  · rintro ⟨⟨j, hc⟩, huid⟩
    obtain ⟨_, rfl⟩ := uid_inj (huid.symm.trans (h.uid hc))
    exact hc

theorem map_worker_iff (h : s.Inv) (i : ℕ) (k l : Fin WORKERS) (c : TcpConduit) :
    (s.slot k i).map (k, ·) = some (l, c) ↔ s.Live l c ∧ c.uid = i * WORKERS + k := by
  simp only [Option.map_eq_some_iff, Prod.mk.injEq]
  constructor
  · rintro ⟨d, hd, rfl, rfl⟩
    exact (h.slot_iff_live i k d).mp hd
  · rintro ⟨hlive, huid⟩
    have hlive' := hlive
    obtain ⟨j, hc⟩ := hlive'
    obtain ⟨rfl, _⟩ := uid_inj (huid.symm.trans (h.uid hc))
    exact ⟨c, (h.slot_iff_live i k c).mpr ⟨hlive, huid⟩, rfl, rfl⟩

end Server

open Server

theorem session_ids_name_conduits (cfg : ServerCommonConfig) (es : List ServerEvent) {s : Server}
    (hs : Transition.run step es (start cfg) = some s) :
    (∀ u : Int, 0 ≤ u → ∀ k c,
      (s.find u = some (k, c) ↔ s.Live k c ∧ c.uid = u) ∧
      ((s.findConn u).1 = some (k, c) ↔ s.Live k c ∧ c.uid = u)) ∧
    ∀ j k c d (m n : ℕ), s.slot j m = some c → s.slot k n = some d → c.uid = d.uid →
      j = k ∧ m = n ∧ c = d := by
  have h := inv_run cfg hs
  constructor
  · intro u hu k c
    obtain ⟨i, l, rfl⟩ := exists_slot_worker hu
    rw [find_uid, show (s.findConn (i * WORKERS + l)).1 = _ from resolve_uid h i l]
    exact ⟨map_worker_iff h i l k c, map_worker_iff h i l k c⟩
  · intro j k c d m n hc hd huid
    rw [h.uid hc, h.uid hd] at huid
    obtain ⟨rfl, rfl⟩ := uid_inj huid
    exact ⟨rfl, rfl, Option.some.inj (hc.symm.trans hd)⟩

/-- A server with key zero is queued as descriptor zero and becomes the conduit with id zero;
the conduit of the other worker has id one. -/
theorem session_ids_of_key_zero : ∃ s, Transition.run step
      [.worker 0 (.initConnection 0), .worker 0 .takeOps,
        .worker 0 (.exec ⟨-1, false, false, false⟩), .worker 1 (.accepted 7), .worker 1 .takeOps,
        .worker 1 (.exec ⟨-1, false, false, false⟩)]
      (start (.ofType 5 1 8000)) = some s ∧
      (s.findConn 0).1 = some (0, ⟨.gameClient, 0, 0, 0⟩) ∧
      s.find 1 = some (1, ⟨.gameClient, 7, 1, 0⟩) := by
  obtain ⟨s, hs, hc, hd⟩ := Transition.exists_run step
    [.worker 0 (.initConnection 0), .worker 0 .takeOps,
      .worker 0 (.exec ⟨-1, false, false, false⟩), .worker 1 (.accepted 7), .worker 1 .takeOps,
      .worker 1 (.exec ⟨-1, false, false, false⟩)]
    (start (.ofType 5 1 8000))
    (fun s => s.slot 0 0 = some ⟨.gameClient, 0, 0, 0⟩ ∧ s.slot 1 0 = some ⟨.gameClient, 7, 1, 0⟩)
    (by decide)
  have hnames := (session_ids_name_conduits (.ofType 5 1 8000) _ hs).1
  exact ⟨s, hs, (hnames 0 le_rfl 0 _).2.mpr ⟨⟨0, hc⟩, rfl⟩,
    (hnames 1 (by decide) 1 _).1.mpr ⟨⟨0, hd⟩, rfl⟩⟩

end RgcFifa
