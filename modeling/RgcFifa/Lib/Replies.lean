import RgcFifa.Lib.Transition

/-! A component that answers requests, and the function that it should compute. Its answers
are right exactly in the runs in which every request meets a condition. -/

namespace Replies

variable {σ α ω ρ : Type*}

def replies (exec : ω → σ → Option (ρ × σ)) : List ω → σ → Option (List ρ)
  | [], _ => some []
  | o :: os, s => (exec o s).bind fun (r, t) => (replies exec os t).map (r :: ·)

def answers (spec : ω → α → ρ × α) : List ω → α → List ρ
  | [], _ => []
  | o :: os, m => (spec o m).1 :: answers spec os (spec o m).2

def after (spec : ω → α → ρ × α) (os : List ω) (m : α) : α := os.foldl (fun m o => (spec o m).2) m

def next (exec : ω → σ → Option (ρ × σ)) (o : ω) (s : σ) : Option σ := (exec o s).map Prod.snd

/-- Under the condition `C` a request is answered as `spec` does and the invariant is kept;
without it the answer is wrong or undefined. -/
structure Refines (exec : ω → σ → Option (ρ × σ)) (spec : ω → α → ρ × α) (abs : σ → α)
    (I : σ → Prop) (C : ω → σ → Prop) : Prop where
  ok : ∀ o s, I s → C o s →
    ∃ t, exec o s = some ((spec o (abs s)).1, t) ∧ I t ∧ abs t = (spec o (abs s)).2
  wrong : ∀ o s r t, I s → ¬ C o s → exec o s = some (r, t) → r ≠ (spec o (abs s)).1

variable {exec : ω → σ → Option (ρ × σ)} {spec : ω → α → ρ × α} {abs : σ → α} {I : σ → Prop}
  {C : ω → σ → Prop}

theorem Refines.replies_iff (h : Refines exec spec abs I C) (os : List ω) {s : σ} (hs : I s) :
    replies exec os s = some (answers spec os (abs s)) ↔ Transition.Always (next exec) C os s := by
  induction os generalizing s with
  | nil => simp [replies, answers, Transition.Always]
  | cons o os ih =>
    rw [replies, answers, Transition.Always]
    by_cases hC : C o s
    · obtain ⟨t, ht, hI, habs⟩ := h.ok o s hs hC
      have hnext : next exec o s = some t := by rw [next, ht, Option.map_some]
      have hrest := ih hI
      rw [habs] at hrest
      simp [ht, hC, hnext, hrest]
    · have hno : ¬ (exec o s).bind (fun (r, t) => (replies exec os t).map (r :: ·)) =
          some ((spec o (abs s)).1 :: answers spec os (spec o (abs s)).2) := by
        intro hr
        obtain ⟨⟨r, t⟩, ht, hr⟩ := Option.bind_eq_some_iff.mp hr
        obtain ⟨rs, _, hcons⟩ := Option.map_eq_some_iff.mp hr
        exact h.wrong o s r t hs hC ht (List.cons.inj hcons).1
      simp [hno, hC]

theorem Refines.run (h : Refines exec spec abs I C) {os : List ω} {s : σ} (hs : I s)
    (hC : Transition.Always (next exec) C os s) :
    ∃ t, Transition.run (next exec) os s = some t ∧ I t ∧ abs t = after spec os (abs s) := by
  induction os generalizing s with
  | nil => exact ⟨s, rfl, hs, rfl⟩
  | cons o os ih =>
    obtain ⟨t, ht, hI, habs⟩ := h.ok o s hs hC.1
    have hnext : next exec o s = some t := by rw [next, ht, Option.map_some]
    obtain ⟨u, hu, hI', habs'⟩ := ih hI (hC.2 t hnext)
    refine ⟨u, Transition.run_cons.mpr ⟨t, hnext, hu⟩, hI', ?_⟩
    rw [habs', habs]
    rfl

end Replies
