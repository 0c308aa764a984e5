import RgcFifa.Worker

/-! Whose conduit a queued removal takes out. A session id names a slot and not a
conduit, so a removal that is still queued when its slot is filled again hits the
newcomer. -/

namespace RgcFifa

open TcpSlaveServer (slotOf Installed)

namespace Worker

/-- Executing the removal at the head of the batch takes out the conduit that queued
it, or none. -/
def RemovesIssuer (w : Worker) : Prop :=
  ∀ id issuer ops, w.rlist = .remove id issuer :: ops →
    w.server.doRemove id = w.server ∨
      ∃ c, w.slot (slotOf id) = some c ∧ c.serial = issuer ∧
        ∀ i, (w.server.doRemove id).slot i = if i = slotOf id then none else w.slot i

/-- The event fills no slot that a pending removal names. -/
def FillsFreed (e : WorkerEvent) (w : Worker) : Prop :=
  ∀ p ∈ fills e w, ∀ op ∈ w.pending, op.target ≠ some p.1

instance (e : WorkerEvent) (w : Worker) : Decidable (FillsFreed e w) :=
  inferInstanceAs (Decidable (∀ p ∈ fills e w, ∀ op ∈ w.pending, op.target ≠ some p.1))

def Owned (w : Worker) : Prop :=
  ∀ id issuer, .remove id issuer ∈ w.pending →
    ∀ c, w.slot (slotOf id) = some c → c.serial = issuer

variable {w w' : Worker}

theorem owned_start (idx : Fin WORKERS) (cfg : ServerCommonConfig) : (start idx cfg).Owned :=
  fun _ _ h => nomatch h

theorem Owned.step {e : WorkerEvent} (h : w.Inv) (ho : w.Owned) (hC : FillsFreed e w)
    (hw : step e w = some w') : w'.Owned := by
  intro id issuer hm c hc
  rcases (step_cases h.table hw).removal_cases h hm hc with ⟨hm, hc⟩ | ⟨hser, _⟩ | ⟨hm, hf⟩
  · exact ho id issuer hm c hc
  · exact hser
  · exact absurd rfl (hC _ hf _ hm)

theorem not_owned_of_stale {e : WorkerEvent} (h : w.Inv) (hw : step e w = some w')
    (hC : ¬ FillsFreed e w) : ¬ w'.Owned := by
  simp only [FillsFreed, not_forall, not_not] at hC
  obtain ⟨⟨k, c⟩, hf, op, hop, htarget⟩ := hC
  obtain ⟨a, ss, ops, rfl, hr, hk, hc⟩ := fills_eq_some hf
  rcases execOp_cases h.table hw with ⟨ss', ops', hr', hops, _, ht⟩ | ⟨_, _, _, hr', _⟩
  · obtain ⟨rfl, rfl⟩ : ss = ss' ∧ ops = ops' := by simpa using hr.symm.trans hr'
    have hi : Installed a ss w.server w'.server c := by
      rcases ht with ⟨hnone, _⟩ | ⟨d, hi⟩
      · exact absurd (hc.symm.trans hnone) (by simp)
      · have hd : c = d := Option.some.inj (hc.symm.trans hi.construct)
        rwa [hd]
    cases op with
    | accept _ => exact absurd htarget (by simp [OpStruct.target])
    | remove id issuer =>
      have hslot : slotOf id = w.server.nextSlot := (Option.some.inj htarget).trans hk
      have hm : .remove id issuer ∈ w'.pending := by
        simpa [pending, hr, hops, hi.opList] using hop
      intro ho
      have hser : c.serial = issuer := ho id issuer hm c ((hi.slot _).trans (if_pos hslot))
      have hlt := h.closed issuer (h.issuer id issuer hop)
      have hnew := hi.serial
      omega
  · exact absurd (hr.symm.trans hr') (by simp)

theorem owned_step_iff {e : WorkerEvent} (h : w.Inv) (ho : w.Owned) (hw : step e w = some w') :
    w'.Owned ↔ FillsFreed e w :=
  ⟨fun ho' => by_contra fun hC => not_owned_of_stale h hw hC ho', fun hC => ho.step h hC hw⟩

theorem Owned.removesIssuer (h : w.server.SlotInv) (ho : w.Owned) : w.RemovesIssuer := by
  intro id issuer ops hr
  cases hc : w.slot (slotOf id) with
  | none => exact .inl (TcpSlaveServer.doRemove_none hc)
  | some c =>
    have hm : .remove id issuer ∈ w.pending := by simp [pending, hr]
    exact .inr ⟨c, rfl, ho id issuer hm c hc, (TcpSlaveServer.doRemove_some h hc).slot⟩

end Worker

open Worker

theorem remove_takes_issuer (idx : Fin WORKERS) (cfg : ServerCommonConfig)
    (es : List WorkerEvent) {w : Worker}
    (hC : Transition.Always step FillsFreed es (start idx cfg))
    (hw : Transition.run step es (start idx cfg) = some w) : w.RemovesIssuer := by
  have h : w.Inv ∧ w.Owned :=
    Transition.run_preserves_of (I := fun w => w.Inv ∧ w.Owned)
      (fun _ _ _ hI hC ht => ⟨hI.1.step ht, hI.2.step hI.1 hC ht⟩)
      ⟨inv_start idx cfg, owned_start idx cfg⟩ hC hw
  exact h.2.removesIssuer h.1.table

theorem remove_takes_issuer_once : ∃ w, Transition.run step
      [.accepted 5, .takeOps, .exec ⟨-1, false, false, false⟩, .forceClose 0, .takeOps]
      (start 0 (.ofType 5 1 8000)) = some w ∧ w.rlist = [.remove 0 0] ∧ w.RemovesIssuer := by
  obtain ⟨w, hw, hr⟩ := Transition.exists_run step
    [.accepted 5, .takeOps, .exec ⟨-1, false, false, false⟩, .forceClose 0, .takeOps]
    (start 0 (.ofType 5 1 8000)) (fun w => w.rlist = [.remove 0 0]) (by decide)
  exact ⟨w, hw, hr, remove_takes_issuer 0 _ _ (by decide) hw⟩

/-- Two calls of `forceClose` around an accept: the second removal meets the conduit
that took the slot over. -/
theorem remove_takes_newcomer : ∃ w, Transition.run step
      [.accepted 5, .takeOps, .exec ⟨-1, false, false, false⟩, .forceClose 0, .accepted 6,
        .forceClose 0, .takeOps, .exec ⟨-1, false, false, false⟩,
        .exec ⟨-1, false, false, false⟩]
      (start 0 (.ofType 5 1 8000)) = some w ∧ ¬ w.RemovesIssuer := by
  obtain ⟨w, hw, hr, hslot, hgone⟩ := Transition.exists_run step
    [.accepted 5, .takeOps, .exec ⟨-1, false, false, false⟩, .forceClose 0, .accepted 6,
      .forceClose 0, .takeOps, .exec ⟨-1, false, false, false⟩, .exec ⟨-1, false, false, false⟩]
    (start 0 (.ofType 5 1 8000))
    (fun w => w.rlist = [.remove 0 0] ∧ w.slot 0 = some ⟨.gameClient, 6, 0, 1⟩ ∧
      (w.server.doRemove 0).slot 0 = none) (by decide)
  refine ⟨w, hw, fun h => ?_⟩
  rcases h 0 0 [] hr with he | ⟨c, hc, hser, _⟩
  · rw [he] at hgone
    exact nomatch hslot.symm.trans hgone
  · have hc1 : c = ⟨.gameClient, 6, 0, 1⟩ := Option.some.inj (hc.symm.trans hslot)
    rw [hc1] at hser
    exact nomatch hser

end RgcFifa
