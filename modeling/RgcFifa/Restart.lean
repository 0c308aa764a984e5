import RgcFifa.SlotTable

/-! A slave server that is stopped and started again. `destroy` empties the table and leaves
the free set, whose ids then lie beyond the table, and `_accepted` finds the least of them
again in every round. -/

namespace RgcFifa

namespace TcpSlaveServer

/-- `TcpSlaveServer::destroy`. The operation list and `_connUp` stay as well. -/
def destroy (s : TcpSlaveServer) : TcpSlaveServer := { s with conduits := [], count := 0 }

/-- The loop of `_accepted` ends, whatever descriptor or key it is called with. -/
def AcceptEnds (s : TcpSlaveServer) : Prop := ∀ a ss, ∃ fuel t, s.acceptLoop a ss fuel = some t

variable {s : TcpSlaveServer}

theorem acceptLoop_stuck (a : Attempt) (ss : Int) (hne : s.emptySet.Nonempty)
    (hout : s.conduits.length ≤ s.emptySet.min' hne) (fuel : ℕ) :
    s.acceptLoop a ss fuel = none := by
  induction fuel with
  | zero => rfl
  | succ fuel ih =>
    have hge : ¬ s.emptySet.min' hne < s.conduits.length := Nat.not_lt.mpr hout
    simp only [acceptLoop, hne, dite_true, hge, if_false, ih]

theorem acceptLoop_one (a : Attempt) (ss : Int)
    (h : ∀ hne : s.emptySet.Nonempty, s.emptySet.min' hne < s.conduits.length) :
    ∃ t, s.acceptLoop a ss 1 = some t := by
  by_cases hne : s.emptySet.Nonempty
  · simp [acceptLoop, hne, h hne]
  · simp [acceptLoop, hne]

/-- The loop ends in its first round or never. -/
theorem acceptEnds_iff : s.AcceptEnds ↔
    ∀ hne : s.emptySet.Nonempty, s.emptySet.min' hne < s.conduits.length := by
  constructor
  · intro h hne
    by_contra hout
    obtain ⟨fuel, t, ht⟩ := h ⟨0, false, false, false⟩ 0
    rw [acceptLoop_stuck _ _ hne (Nat.not_lt.mp hout)] at ht
    cases ht
  · intro h a ss
    exact ⟨1, acceptLoop_one a ss h⟩

instance (s : TcpSlaveServer) : Decidable s.AcceptEnds := decidable_of_iff _ acceptEnds_iff.symm

theorem acceptEnds_destroy_iff : s.destroy.AcceptEnds ↔ s.emptySet = ∅ := by
  rw [acceptEnds_iff]
  constructor
  · intro h
    by_contra hne
    exact Nat.not_lt_zero _ (h (Finset.nonempty_iff_ne_empty.mpr hne))
  · intro he hne
    exact absurd he hne.ne_empty

theorem SlotInv.acceptEnds (h : s.SlotInv) : s.AcceptEnds :=
  acceptEnds_iff.mpr fun _ => h.tidy.lt_length (Finset.min'_mem _ _)

theorem slotInv_destroy (he : s.emptySet = ∅) : s.destroy.SlotInv where
  tidy := by
    have hempty : s.destroy.emptySet = ∅ := he
    rw [hempty]
    exact Slots.tidy_nil
  count := rfl
  uid := by
    intro i c hc
    simp [TcpSlaveServer.destroy, slot, Slots.slot] at hc

end TcpSlaveServer

open TcpSlaveServer

inductive RestartOp where
  | accepted (a : Attempt) (ss : Int)
  | remove (id : Int)
  | destroy

/-- The table operations, and the end of the loop in `run()`, which then starts over. -/
def restartStep : RestartOp → TcpSlaveServer → Option TcpSlaveServer
  | .accepted a ss, s => s.doAccept a ss
  | .remove id, s => some (s.doRemove id)
  | .destroy, s => some s.destroy

/-- The server is not destroyed while its free set has a member. -/
def Restartable (op : RestartOp) (s : TcpSlaveServer) : Prop := op = .destroy → s.emptySet = ∅

theorem restart_slotInv {op : RestartOp} {s t : TcpSlaveServer} (h : s.SlotInv)
    (hop : Restartable op s) (ht : restartStep op s = some t) : t.SlotInv := by
  cases op with
  | accepted a ss => exact h.doAccept ht
  | remove id =>
    obtain rfl := Option.some.inj ht
    exact h.doRemove id
  | destroy =>
    obtain rfl := Option.some.inj ht
    exact slotInv_destroy (hop rfl)

/-- Accepting ends in every state of a run exactly when no restart of the run meets a slot
that has been freed below the last one. -/
theorem accept_ends_iff (idx : ℕ) (cfg : ServerCommonConfig) (ops : List RestartOp) :
    Transition.Always restartStep Restartable ops (start idx cfg) ↔
      ∀ pre suf s, ops = pre ++ suf →
        Transition.run restartStep pre (start idx cfg) = some s → s.AcceptEnds := by
  constructor
  · rintro h pre suf s rfl hs
    have hinv : s.SlotInv := Transition.run_preserves_of (fun _ _ _ hi hop ht =>
      restart_slotInv hi hop ht) (slotInv_start idx cfg) h.of_append hs
    exact hinv.acceptEnds
  · intro h
    apply Transition.always_iff.mpr
    rintro pre op suf s rfl hs rfl
    have hdestroy : Transition.run restartStep (pre ++ [.destroy]) (start idx cfg) =
        some s.destroy := Transition.run_append hs rfl
    exact acceptEnds_destroy_iff.mp
      (h (pre ++ [.destroy]) suf s.destroy (List.append_cons _ _ _) hdestroy)

/-- Of two conduits the first is removed; after the restart no round of the loop changes
anything. -/
theorem accept_spins_after_restart : ∃ s, Transition.run restartStep
      [.accepted ⟨0, false, false, false⟩ 5, .accepted ⟨0, false, false, false⟩ 6, .remove 0,
        .destroy] (start 0 (.ofType 5 1 8000)) = some s ∧
      ∀ fuel, s.acceptLoop ⟨0, false, false, false⟩ 7 fuel = none := by
  obtain ⟨s, hs, hempty, hlen⟩ := Transition.exists_run restartStep
    [.accepted ⟨0, false, false, false⟩ 5, .accepted ⟨0, false, false, false⟩ 6, .remove 0,
      .destroy] (start 0 (.ofType 5 1 8000))
    (fun s => s.emptySet = {0} ∧ s.conduits = []) (by decide)
  refine ⟨s, hs, fun fuel => ?_⟩
  have hne : s.emptySet.Nonempty := by
    rw [hempty]
    exact Finset.singleton_nonempty 0
  exact acceptLoop_stuck _ _ hne (by simp [hlen]) fuel

end RgcFifa
