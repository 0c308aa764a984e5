import RgcFifa.RemoveOwner

/-! The outgoing connection to one server key. Its entry of `_connUp` agrees with the
queued connect operations and the conduits of the table as long as no conduit that has
disconnected before disturbs its successor. -/

namespace RgcFifa

open TcpSlaveServer (slotOf Accepted Installed Removed)

namespace Worker

def Linked (key : Int) (w : Worker) (i : ℕ) : Prop :=
  ∃ c, w.slot i = some c ∧ c.kind = .clientConn key ∧ c.serial ∉ w.closed

def links (key : Int) (w : Worker) : Finset ℕ :=
  (Finset.range w.server.conduits.length).filter fun i =>
    (w.slot i).any fun c => c.kind = .clientConn key ∧ c.serial ∉ w.closed

/-- An entry of `_connUp` that is not negative is backed by a queued connect or a live
connection, and there is never more than one of these. -/
structure LinkSound (key : Int) (w : Worker) : Prop where
  up : ∀ v, w.server.connUp[key]? = some v → 0 ≤ v →
    .accept (-key) ∈ w.pending ∨ Linked key w (slotOf v)
  single : w.pending.count (.accept (-key)) + (w.links key).card ≤ 1

def closer (e : WorkerEvent) (w : Worker) : Option TcpConduit :=
  match e with
  | .forceClose i => w.slot i
  | _ => none

/-- A connection goes to no slot that a pending removal names, and a connection that has
disconnected calls `forceClose` again only while its key is down. -/
def KeepsLinks (e : WorkerEvent) (w : Worker) : Prop :=
  (∀ p ∈ fills e w, p.2.kind ≠ .gameClient → ∀ op ∈ w.pending, op.target ≠ some p.1) ∧
    ∀ c ∈ closer e w, c.serial ∈ w.closed → ∀ key ∈ c.serverKey, ¬ w.server.isUp key

instance (e : WorkerEvent) (w : Worker) : Decidable (KeepsLinks e w) :=
  inferInstanceAs (Decidable ((∀ p ∈ fills e w, p.2.kind ≠ .gameClient →
    ∀ op ∈ w.pending, op.target ≠ some p.1) ∧
    ∀ c ∈ closer e w, c.serial ∈ w.closed → ∀ key ∈ c.serverKey, ¬ w.server.isUp key))

def Spares (w : Worker) : Prop :=
  ∀ id issuer, .remove id issuer ∈ w.pending →
    ∀ c, w.slot (slotOf id) = some c → c.kind ≠ .gameClient → c.serial ∈ w.closed

/-- The three states of a server key. -/
inductive LinkState (key : Int) (w : Worker) : Prop where
  | down (connUp : ¬ w.server.isUp key) (queued : w.pending.count (.accept (-key)) = 0)
      (links : ∀ i, ¬ Linked key w i)
  | connecting (connUp : w.server.isUp key) (queued : w.pending.count (.accept (-key)) = 1)
      (links : ∀ i, ¬ Linked key w i)
  | up (v : Int) (connUp : w.server.connUp[key]? = some v) (nonneg : 0 ≤ v)
      (queued : w.pending.count (.accept (-key)) = 0)
      (links : ∀ i, Linked key w i ↔ i = slotOf v)

variable {w w' : Worker} {key : Int}

theorem mem_links {i : ℕ} : i ∈ w.links key ↔ Linked key w i := by
  simp only [links, Finset.mem_filter, Finset.mem_range, Option.any_eq_true, decide_eq_true_eq,
    Linked]
  constructor
  · rintro ⟨_, c, hc, hk⟩
    exact ⟨c, hc, hk⟩
  · rintro ⟨c, hc, hk⟩
    exact ⟨Slots.slot_lt hc, c, hc, hk⟩

theorem LinkState.sound (h : LinkState key w) : w.LinkSound key := by
  have hempty (hl : ∀ i, ¬ Linked key w i) : (w.links key).card = 0 :=
    Finset.card_eq_zero.mpr (Finset.eq_empty_of_forall_notMem fun i hi => hl i (mem_links.mp hi))
  cases h with
  | down hup hq hl =>
    exact ⟨fun v hv hnn => absurd ⟨v, hv, hnn⟩ hup, by rw [hq, hempty hl]; omega⟩
  | connecting hup hq hl =>
    refine ⟨fun v hv hnn => .inl ?_, by rw [hq, hempty hl]⟩
    exact List.count_pos_iff.mp (by omega)
  | up v hv _ hq hl =>
    constructor
    · intro v' hv' _
      rw [hv] at hv'
      rw [← Option.some.inj hv']
      exact .inr ((hl _).mpr rfl)
    · have hcard : (w.links key).card ≤ 1 := by
        refine Finset.card_le_one.mpr fun i hi j hj => ?_
        rw [(hl i).mp (mem_links.mp hi), (hl j).mp (mem_links.mp hj)]
      omega

theorem LinkState.congr (h : LinkState key w)
    (hup : w'.server.connUp[key]? = w.server.connUp[key]?)
    (hq : w'.pending.count (.accept (-key)) = w.pending.count (.accept (-key)))
    (hl : ∀ i, Linked key w' i ↔ Linked key w i) : LinkState key w' := by
  have hiff : w'.server.isUp key ↔ w.server.isUp key := by
    simp only [TcpSlaveServer.isUp, hup]
  cases h with
  | down hu hq' hl' => exact .down (hiff.not.mpr hu) (hq.trans hq') fun i => (hl i).not.mpr (hl' i)
  | connecting hu hq' hl' =>
    exact .connecting (hiff.mpr hu) (hq.trans hq') fun i => (hl i).not.mpr (hl' i)
  | up v hv hnn hq' hl' =>
    exact .up v (hup.trans hv) hnn (hq.trans hq') fun i => (hl i).trans (hl' i)

theorem linked_congr (key : Int) (hslot : ∀ i, w'.slot i = w.slot i) (hclosed : w'.closed = w.closed)
    (i : ℕ) : Linked key w' i ↔ Linked key w i := by
  simp only [Linked, hslot, hclosed]

theorem linkState_start (key : Int) (idx : Fin WORKERS) (cfg : ServerCommonConfig) :
    LinkState key (start idx cfg) :=
  .down (by rintro ⟨v, hv, _⟩; exact nomatch hv) rfl (by rintro i ⟨c, hc, _⟩; exact nomatch hc)

theorem spares_start (idx : Fin WORKERS) (cfg : ServerCommonConfig) : (start idx cfg).Spares :=
  fun _ _ h => nomatch h

theorem Spares.step {e : WorkerEvent} (h : w.Inv) (hS : w.Spares) (hC : KeepsLinks e w)
    (hw : step e w = some w') : w'.Spares := by
  have hs := step_cases h.table hw
  intro id issuer hm c hc hk
  rcases hs.removal_cases h hm hc with ⟨hm, hc⟩ | ⟨hser, hcl⟩ | ⟨hm, hf⟩
  · exact hs.closed_mono (hS id issuer hm c hc hk)
  · rw [hser]
    exact hcl
  · exact absurd rfl (hC.1 _ hf hk _ hm)

theorem not_isUp_of_neg {s : TcpSlaveServer} {v : Int} (h : s.connUp[key]? = some v) (hv : v < 0) :
    ¬ s.isUp key := by
  rintro ⟨u, hu, hnn⟩
  rw [h] at hu
  have := Option.some.inj hu
  omega

theorem count_accept_append {ops : List OpStruct} {op : OpStruct} (h : op ≠ .accept (-key)) :
    (ops ++ [op]).count (.accept (-key)) = ops.count (.accept (-key)) := by
  simp [List.count_append, h]

theorem count_accept_tail (key : Int) {ops tail : List OpStruct} {op : OpStruct} (hp : ops = op :: tail)
    (h : op ≠ .accept (-key)) :
    tail.count (.accept (-key)) = ops.count (.accept (-key)) := by
  rw [hp, List.count_cons_of_ne h]

/-- What a step does to one server key: nothing, a connect is queued, a connection
disconnects, or the queued connect fails or succeeds. -/
inductive LinkStep (key : Int) (w w' : Worker) : Prop where
  | same (connUp : w'.server.connUp[key]? = w.server.connUp[key]?)
      (queued : w'.pending.count (.accept (-key)) = w.pending.count (.accept (-key)))
      (links : ∀ i, Linked key w' i ↔ Linked key w i)
  | queued (down : ¬ w.server.isUp key) (connUp : w'.server.connUp[key]? = some 0)
      (queued : w'.pending.count (.accept (-key)) = w.pending.count (.accept (-key)) + 1)
      (links : ∀ i, Linked key w' i ↔ Linked key w i)
  | lost (i : ℕ) (closer : ¬ Linked key w i → ¬ w.server.isUp key)
      (connUp : w'.server.connUp[key]? = some (-1))
      (queued : w'.pending.count (.accept (-key)) = w.pending.count (.accept (-key)))
      (links : ∀ j, Linked key w' j ↔ Linked key w j ∧ j ≠ i)
  | failed (connUp : w'.server.connUp[key]? = some (-1))
      (queued : w.pending.count (.accept (-key)) = w'.pending.count (.accept (-key)) + 1)
      (links : ∀ i, Linked key w' i ↔ Linked key w i)
  | linked (i : ℕ) (connUp : w'.server.connUp[key]? = some ((i : Int) * WORKERS + w.server.slaveIdx))
      (queued : w.pending.count (.accept (-key)) = w'.pending.count (.accept (-key)) + 1)
      (links : ∀ j, Linked key w' j ↔ Linked key w j ∨ j = i)

theorem linkStep_connect {k : UInt16} (table : SameTable w.server w'.server)
    (down : ¬ w.server.isUp k.toNat) (pending : w'.pending = w.pending ++ [.accept (-k.toNat)])
    (connUp : w'.server.connUp = w.server.connUp.insert k.toNat 0) (closed : w'.closed = w.closed) :
    LinkStep key w w' := by
  have hlinked := linked_congr key table.slot closed
  by_cases hk : (k.toNat : Int) = key
  · rw [hk] at down connUp pending
    refine .queued down ?_ ?_ hlinked
    · rw [connUp, Std.ExtTreeMap.getElem?_insert_self]
    · rw [pending, List.count_append]
      simp
  · refine .same ?_ ?_ hlinked
    · rw [connUp, getElem?_insert_ne hk]
    · rw [pending]
      exact count_accept_append (by simpa using hk)

theorem linkStep_forceClose (h : w.Inv) {i : ℕ} {c : TcpConduit}
    (table : SameTable w.server w'.server) (hc : w.slot i = some c)
    (pending : w'.pending = w.pending ++ [.remove c.uid c.serial])
    (connUp : w'.server.connUp = (w.server.onDisconnected c).connUp)
    (closed : w'.closed = insert c.serial w.closed)
    (hC : c.serial ∈ w.closed → ∀ k ∈ c.serverKey, ¬ w.server.isUp k) : LinkStep key w w' := by
  have hq : w'.pending.count (.accept (-key)) = w.pending.count (.accept (-key)) := by
    rw [pending]
    exact count_accept_append (by simp)
  have hlinks (j : ℕ) : Linked key w' j ↔ Linked key w j ∧ j ≠ i := by
    constructor
    · rintro ⟨d, hd, hkd, hcl⟩
      have hd' : w.slot j = some d := (table.slot j).symm.trans hd
      rw [closed, Finset.mem_insert, not_or] at hcl
      refine ⟨⟨d, hd', hkd, hcl.2⟩, fun hji => hcl.1 ?_⟩
      rw [hji] at hd'
      rw [Option.some.inj (hd'.symm.trans hc)]
    · rintro ⟨⟨d, hd, hkd, hcl⟩, hne⟩
      refine ⟨d, (table.slot j).trans hd, hkd, ?_⟩
      rw [closed, Finset.mem_insert, not_or]
      exact ⟨fun hser => hne (h.inj j i d c hd hc hser), hcl⟩
  by_cases hk : c.kind = .clientConn key
  · refine .lost i (fun hlive => hC ?_ key (by simp [TcpConduit.serverKey, hk])) ?_ hq hlinks
    · by_contra hcl
      exact hlive ⟨c, hc, hk, hcl⟩
    · rw [connUp, TcpSlaveServer.onDisconnected, hk]
      exact Std.ExtTreeMap.getElem?_insert_self
  · refine .same ?_ hq fun j => (hlinks j).trans (and_iff_left_of_imp ?_)
    · rw [connUp, TcpSlaveServer.onDisconnected]
      cases hkind : c.kind with
      | gameClient => rfl
      | clientConn ss => exact getElem?_insert_ne (fun he => hk (by rw [hkind, he]))
    · rintro ⟨d, hd, hkd, _⟩ rfl
      rw [Option.some.inj (hd.symm.trans hc)] at hkd
      exact hk hkd

theorem linkStep_acceptFailed (hkey : 1 ≤ key) {ss : Int}
    (hfail : w'.server = w.server.acceptFailed ss) (pending : w.pending = .accept ss :: w'.pending)
    (closed : w'.closed = w.closed) : LinkStep key w w' := by
  rw [TcpSlaveServer.acceptFailed_eq] at hfail
  have hslot (i : ℕ) : w'.slot i = w.slot i := by rw [slot, hfail]
  have hlinked := linked_congr key hslot closed
  have hup : w'.server.connUp = if ss < 0 then w.server.connUp.insert (-ss) (-1)
      else w.server.connUp := by rw [hfail]
  by_cases hs : ss = -key
  · rw [hs] at pending
    rw [if_pos (by omega), hs, neg_neg] at hup
    refine .failed ?_ (by rw [pending, List.count_cons_self]) hlinked
    rw [hup]
    exact Std.ExtTreeMap.getElem?_insert_self
  · refine .same ?_ (count_accept_tail key pending (by simpa using hs)) hlinked
    rw [hup]
    split_ifs
    · exact getElem?_insert_ne (by omega)
    · rfl

theorem linkStep_installed (h : w.Inv) (hkey : 1 ≤ key) {a : Attempt} {ss : Int}
    {c : TcpConduit} (hi : Installed a ss w.server w'.server c)
    (pending : w.pending = .accept ss :: w'.pending) (closed : w'.closed = w.closed) :
    LinkStep key w w' := by
  have hfree : w.slot w.server.nextSlot = none := h.table.tidy.next_isLeast.1
  have hkind := (TcpSlaveServer.construct_eq hi.construct).2.2
  have hup := hi.connUp
  have hold (i : ℕ) (hi' : i ≠ w.server.nextSlot) : Linked key w' i ↔ Linked key w i := by
    simp only [Linked, slot, hi.slot, if_neg hi', closed]
  have hnot : ¬ Linked key w w.server.nextSlot := by
    rintro ⟨d, hd, _⟩
    exact nomatch hd.symm.trans hfree
  by_cases hs : ss = -key
  · rw [hs] at pending
    rw [if_pos (by omega), hs, neg_neg] at hup hkind
    refine .linked w.server.nextSlot ?_ (by rw [pending, List.count_cons_self]) fun j => ?_
    · rw [hup, Std.ExtTreeMap.getElem?_insert_self, hi.uid]
    · by_cases hj : j = w.server.nextSlot
      · subst hj
        refine iff_of_true ⟨c, (hi.slot _).trans (if_pos rfl), hkind, fun hcl => ?_⟩ (.inr rfl)
        rw [closed, hi.serial] at hcl
        exact absurd (h.closed _ hcl) (lt_irrefl _)
      · rw [hold j hj, or_iff_left hj]
  · refine .same ?_ (count_accept_tail key pending (by simpa using hs)) fun i => ?_
    · rw [hup]
      split_ifs
      · exact getElem?_insert_ne (by omega)
      · rfl
    · by_cases hne : i = w.server.nextSlot
      · subst hne
        refine iff_of_false ?_ hnot
        rintro ⟨d, hd, hk, _⟩
        obtain rfl : c = d := Option.some.inj (((hi.slot _).trans (if_pos rfl)).symm.trans hd)
        rw [hk] at hkind
        split_ifs at hkind
        injection hkind with hkey'
        omega
      · exact hold i hne

theorem linkStep_remove (h : w.Inv) (hS : w.Spares) {id : Int} {issuer : ℕ}
    (hr : w'.server = w.server.doRemove id) (pending : w.pending = .remove id issuer :: w'.pending)
    (closed : w'.closed = w.closed) : LinkStep key w w' := by
  have hq := count_accept_tail key pending (by simp)
  cases hc : w.slot (slotOf id) with
  | none =>
    have hsame : w'.server = w.server := hr.trans (TcpSlaveServer.doRemove_none hc)
    exact .same (by rw [hsame]) hq (linked_congr key (fun i => by rw [slot, hsame]) closed)
  | some c =>
    have hrem := TcpSlaveServer.doRemove_some h.table hc
    rw [← hr] at hrem
    refine .same (by rw [hrem.rest]) hq fun i => ?_
    constructor
    · rintro ⟨d, hd, hk, hcl⟩
      rw [slot, hrem.slot] at hd
      split_ifs at hd
      rw [closed] at hcl
      exact ⟨d, hd, hk, hcl⟩
    · rintro ⟨d, hd, hk, hcl⟩
      have hne : i ≠ slotOf id := by
        rintro rfl
        refine hcl (hS id issuer ?_ d hd ?_)
        · rw [pending]; exact List.mem_cons_self
        · simp [hk]
      refine ⟨d, ?_, hk, by rwa [closed]⟩
      rw [slot, hrem.slot, if_neg hne]
      exact hd

theorem linkStep_of_step (hkey : 1 ≤ key) {e : WorkerEvent} (h : w.Inv) (hS : w.Spares)
    (hC : KeepsLinks e w) (hw : step e w = some w') : LinkStep key w w' := by
  cases step_cases h.table hw with
  | idle table pending connUp closed =>
    exact .same (by rw [connUp]) (by rw [pending]) (linked_congr key table.slot closed)
  | connect k table down pending connUp closed =>
    exact linkStep_connect table down pending connUp closed
  | accepted sock table pending connUp closed =>
    refine .same (by rw [connUp]) ?_ (linked_congr key table.slot closed)
    rw [pending]
    refine count_accept_append fun he => ?_
    have := OpStruct.accept.inj he
    omega
  | forceClose i c table hc pending connUp closed =>
    exact linkStep_forceClose h table hc pending connUp closed (hC.2 c hc)
  | accept a ss ht _ pending closed =>
    rcases ht with ⟨_, hfail⟩ | ⟨c, hi⟩
    · exact linkStep_acceptFailed hkey hfail pending closed
    · exact linkStep_installed h hkey hi pending closed
  | remove a id issuer hr pending closed => exact linkStep_remove h hS hr pending closed

theorem LinkState.step (hidx : w.server.slaveIdx < WORKERS) (hl : LinkState key w)
    (hs : LinkStep key w w') : LinkState key w' := by
  cases hs with
  | same hup hq hlinks => exact hl.congr hup hq hlinks
  | queued hdown hup hq hlinks =>
    cases hl with
    | down _ hq' hnone =>
      exact .connecting ⟨0, hup, le_rfl⟩ (by omega) fun i => (hlinks i).not.mpr (hnone i)
    | connecting hup' => exact absurd hup' hdown
    | up v hv hnn => exact absurd ⟨v, hv, hnn⟩ hdown
  | lost i hcloser hup hq hlinks =>
    have hdown : ¬ w'.server.isUp key := not_isUp_of_neg hup (by omega)
    cases hl with
    | down _ hq' hnone => exact .down hdown (hq.trans hq') fun j hj => hnone j ((hlinks j).mp hj).1
    | connecting hup' _ hnone => exact absurd hup' (hcloser (hnone i))
    | up v hv hnn hq' hiff =>
      have hi : Linked key w i := by
        by_contra hlive
        exact hcloser hlive ⟨v, hv, hnn⟩
      refine .down hdown (hq.trans hq') fun j hj => ?_
      obtain ⟨hj, hne⟩ := (hlinks j).mp hj
      exact hne (((hiff j).mp hj).trans ((hiff i).mp hi).symm)
  | failed hup hq hlinks =>
    cases hl with
    | down _ hq' => omega
    | connecting _ _ hnone =>
      exact .down (not_isUp_of_neg hup (by omega)) (by omega) fun i => (hlinks i).not.mpr (hnone i)
    | up v _ _ hq' => omega
  | linked i hup hq hlinks =>
    cases hl with
    | down _ hq' => omega
    | connecting _ _ hnone =>
      refine .up _ hup (by positivity) (by omega) fun j => ?_
      rw [hlinks, or_iff_right (hnone j), slotOf_uid hidx]
    | up v _ _ hq' => omega

end Worker

open Worker

theorem connection_sound (idx : Fin WORKERS) (cfg : ServerCommonConfig) (es : List WorkerEvent)
    {w : Worker} (hC : Transition.Always step KeepsLinks es (start idx cfg))
    (hw : Transition.run step es (start idx cfg) = some w) (key : Int) (hkey : 1 ≤ key) :
    w.LinkSound key := by
  have h : w.Inv ∧ w.Spares ∧ LinkState key w :=
    Transition.run_preserves_of (I := fun w => w.Inv ∧ w.Spares ∧ LinkState key w)
      (fun _ _ _ ⟨hI, hS, hl⟩ hC ht =>
        ⟨hI.step ht, hS.step hI hC ht, hl.step hI.idx (linkStep_of_step hkey hI hS hC ht)⟩)
      ⟨inv_start idx cfg, spares_start idx cfg, linkState_start key idx cfg⟩ hC hw
  exact h.2.2.sound

def linkedConfig : ServerCommonConfig :=
  (ServerCommonConfig.ofType 5 1 8000).addConnectListOf 1 1 "127.0.0.1" 8100

theorem connection_sound_after_loss : ∃ w, Transition.run step
      [.initConnection 257, .takeOps, .exec ⟨9, false, false, false⟩, .forceClose 0,
        .initConnection 257, .takeOps, .exec ⟨9, false, false, false⟩,
        .exec ⟨9, false, false, false⟩] (start 0 linkedConfig) = some w ∧
      w.server.connUp[(257 : Int)]? = some 0 ∧ w.LinkSound 257 := by
  obtain ⟨w, hw, hup⟩ := Transition.exists_run step
    [.initConnection 257, .takeOps, .exec ⟨9, false, false, false⟩, .forceClose 0,
      .initConnection 257, .takeOps, .exec ⟨9, false, false, false⟩,
      .exec ⟨9, false, false, false⟩] (start 0 linkedConfig)
    (fun w => w.server.connUp[(257 : Int)]? = some 0) (by decide)
  exact ⟨w, hw, hup, connection_sound 0 linkedConfig _ (by decide) hw 257 (by omega)⟩

/-- A second `forceClose` of a lost connection, made after its key was connected anew:
the old removal takes out the new connection and leaves the key marked up, and the next
timer tick queues a second connect beside the first. -/
theorem connection_not_sound :
    (∃ w, Transition.run step
      [.initConnection 257, .takeOps, .exec ⟨9, false, false, false⟩, .forceClose 0,
        .initConnection 257, .forceClose 0, .takeOps, .exec ⟨9, false, false, false⟩,
        .exec ⟨10, false, false, false⟩, .exec ⟨9, false, false, false⟩]
      (start 0 linkedConfig) = some w ∧
      w.server.connUp[(257 : Int)]? = some 0 ∧ w.pending = [] ∧ w.slot 0 = none ∧
      ¬ w.LinkSound 257) ∧
    ∃ w, Transition.run step
      [.initConnection 257, .takeOps, .exec ⟨9, false, false, false⟩, .forceClose 0,
        .initConnection 257, .forceClose 0, .initConnection 257]
      (start 0 linkedConfig) = some w ∧ w.pending.count (.accept (-257)) = 2 ∧
      ¬ w.LinkSound 257 := by
  constructor
  · obtain ⟨w, hw, hup, hp, hslot⟩ := Transition.exists_run step
      [.initConnection 257, .takeOps, .exec ⟨9, false, false, false⟩, .forceClose 0,
        .initConnection 257, .forceClose 0, .takeOps, .exec ⟨9, false, false, false⟩,
        .exec ⟨10, false, false, false⟩, .exec ⟨9, false, false, false⟩] (start 0 linkedConfig)
      (fun w => w.server.connUp[(257 : Int)]? = some 0 ∧ w.pending = [] ∧ w.slot 0 = none)
      (by decide)
    refine ⟨w, hw, hup, hp, hslot, fun h => ?_⟩
    rcases h.up 0 hup le_rfl with hq | ⟨c, hc, _⟩
    · rw [hp] at hq
      exact nomatch hq
    · exact nomatch hc.symm.trans hslot
  · obtain ⟨w, hw, hq⟩ := Transition.exists_run step
      [.initConnection 257, .takeOps, .exec ⟨9, false, false, false⟩, .forceClose 0,
        .initConnection 257, .forceClose 0, .initConnection 257] (start 0 linkedConfig)
      (fun w => w.pending.count (.accept (-257)) = 2) (by decide)
    refine ⟨w, hw, hq, fun h => ?_⟩
    have hsingle := h.single
    omega

end RgcFifa
