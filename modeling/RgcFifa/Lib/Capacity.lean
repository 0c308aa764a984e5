import RgcFifa.Lib.Faulting
import Mathlib.Order.Lattice
import Mathlib.Order.Nat

/-! Programs that append to a buffer of bounded capacity. A run that ends is the same run at every
capacity that holds what it has written, and at no smaller one. -/

namespace Capacity

universe u v w

/-- A state with a buffer: what is used of it and what there is. -/
class Buffered (β : Type u) where
  used : β → ℕ
  cap : β → ℕ
  withCap : β → ℕ → β
  used_withCap : ∀ b n, used (withCap b n) = used b
  cap_withCap : ∀ b n, cap (withCap b n) = n
  withCap_withCap : ∀ b m n, withCap (withCap b m) n = withCap b n

export Buffered (used cap withCap used_withCap cap_withCap withCap_withCap)

attribute [simp] used_withCap cap_withCap withCap_withCap

/-- A result beside the state. -/
instance {α : Type u} {β : Type u} [Buffered β] : Buffered (α × β) where
  used p := used p.2
  cap p := cap p.2
  withCap p n := (p.1, withCap p.2 n)
  used_withCap p n := used_withCap p.2 n
  cap_withCap p n := cap_withCap p.2 n
  withCap_withCap p m n := by simp

/-- The error of a program that writes more than there is capacity for. -/
class Overflowing (ε : Type v) where
  overflow : ε

export Overflowing (overflow)

variable {ε : Type v} [Overflowing ε] {α β γ δ : Type u} [Buffered β] [Buffered γ] [Buffered δ]

@[simp] theorem used_pair (a : α) (b : β) : used (a, b) = used b := rfl

@[simp] theorem withCap_pair (a : α) (b : β) (n : ℕ) : withCap (a, b) n = (a, withCap b n) := rfl

/-- What the end `c` of a run of `f` from `b` says about the run. -/
structure Fits (f : β → Except ε γ) (b : β) (c : γ) : Prop where
  cap : cap c = cap b
  grow : used b ≤ used c
  bound : used b ≤ Buffered.cap b → used c ≤ Buffered.cap b
  other : ∀ n, used c ≤ n → f (withCap b n) = .ok (withCap c n)
  short : ∀ n, used b ≤ n → n < used c → f (withCap b n) = .error overflow

/-- Every run of `f` from `b` fits. -/
def RoomedAt (f : β → Except ε γ) (b : β) : Prop := ∀ c, f b = .ok c → Fits f b c

def Roomed (f : β → Except ε γ) : Prop := ∀ b, RoomedAt f b

/-- What changes neither the buffer nor its capacity. -/
theorem roomed_keep {g : β → γ} (hused : ∀ b, used (g b) = used b) (hcap : ∀ b, cap (g b) = cap b)
    (hwith : ∀ b n, g (withCap b n) = withCap (g b) n) :
    Roomed fun b => (.ok (g b) : Except ε γ) := by
  intro b c h
  obtain rfl := Except.ok.inj h
  refine ⟨hcap b, (hused b).ge, fun hb => (hused b).le.trans hb, fun n _ => ?_, fun n hb hn => ?_⟩
  · rw [hwith]
  · exact absurd ((hused b).le.trans hb) (Nat.not_le.mpr hn)

theorem roomed_result (a : α) : Roomed fun b : β => (.ok (a, b) : Except ε (α × β)) :=
  roomed_keep (fun _ => rfl) (fun _ => rfl) fun _ _ => rfl

theorem roomed_error (e : ε) : Roomed fun _ : β => (Except.error e : Except ε γ) := by
  intro b c h
  cases h

theorem RoomedAt.bind {f : β → Except ε γ} {g : γ → Except ε δ} {b : β} (hf : RoomedAt f b)
    (hg : ∀ c, f b = .ok c → RoomedAt g c) : RoomedAt (fun b => f b >>= g) b := by
  intro d h
  obtain ⟨c, hc, hd⟩ := Faulting.bind_eq_ok.mp h
  have hfirst := hf c hc
  have hsecond := hg c hc d hd
  refine ⟨hsecond.cap.trans hfirst.cap, hfirst.grow.trans hsecond.grow, ?_, ?_, ?_⟩
  · intro hb
    have hc := hfirst.bound hb
    rw [← hfirst.cap] at hc ⊢
    exact hsecond.bound hc
  · intro n hn
    show (f (withCap b n) >>= g) = _
    rw [hfirst.other n (hsecond.grow.trans hn), Faulting.ok_bind, hsecond.other n hn]
  · intro n hb hn
    show (f (withCap b n) >>= g) = _
    by_cases hc : used c ≤ n
    · rw [hfirst.other n hc, Faulting.ok_bind, hsecond.short n hc hn]
    · rw [hfirst.short n hb (Nat.not_le.mp hc), Faulting.error_bind]

theorem Roomed.bind {f : β → Except ε γ} {g : γ → Except ε δ} (hf : Roomed f) (hg : Roomed g) :
    Roomed fun b => f b >>= g :=
  fun b => (hf b).bind fun c _ => hg c

/-- A step that does not look at the state. -/
theorem roomed_pure (x : Except ε α) {g : α → β → Except ε γ} (h : ∀ a, Roomed (g a)) :
    Roomed fun b => x >>= fun a => g a b := by
  cases x with
  | error e => exact roomed_error e
  | ok a => exact h a

theorem RoomedAt.pair {f : α × β → Except ε γ} {p : α × β} (h : RoomedAt (fun b => f (p.1, b)) p.2) :
    RoomedAt f p := by
  intro c hc
  have hfits := h c hc
  exact ⟨hfits.cap, hfits.grow, hfits.bound, hfits.other, hfits.short⟩

/-- A function of a result and the state, for each result. -/
theorem Roomed.pair {f : α × β → Except ε γ} (h : ∀ a, Roomed fun b => f (a, b)) : Roomed f :=
  fun p => (h p.1 p.2).pair

/-- A run that is another one at every capacity. -/
theorem RoomedAt.congr {f g : β → Except ε γ} {b : β} (h : RoomedAt g b) (hb : f b = g b)
    (hn : ∀ n, f (withCap b n) = g (withCap b n)) : RoomedAt f b := by
  intro c hc
  have hfits := h c (hb ▸ hc)
  exact ⟨hfits.cap, hfits.grow, hfits.bound, fun n hle => (hn n).trans (hfits.other n hle),
    fun n hle hlt => (hn n).trans (hfits.short n hle hlt)⟩

/-- Two runs that end, at whatever capacities, have written the same. -/
theorem Roomed.used_eq {f : β → Except ε γ} (hf : Roomed f) {b : β} {c d : γ} {n : ℕ}
    (h : f b = .ok c) (h' : f (withCap b n) = .ok d) : used d = used c := by
  have hc := (hf b c h).other _ (le_max_left (used c) (used d))
  have hd := (hf _ d h').other _ (le_max_right (used c) (used d))
  rw [withCap_withCap, hc] at hd
  simpa using (congrArg used (Except.ok.inj hd)).symm

/-- A run that ends at some capacity ends exactly at the capacities that hold what it writes. -/
theorem Roomed.returns_iff {f : β → Except ε γ} (hf : Roomed f) {b : β} {c : γ} (h : f b = .ok c)
    {n : ℕ} (hn : used b ≤ n) : (∃ d, f (withCap b n) = .ok d) ↔ used c ≤ n := by
  constructor
  · rintro ⟨d, hd⟩
    have hbound := (hf _ d hd).bound (by simpa using hn)
    rwa [cap_withCap, hf.used_eq h hd] at hbound
  · intro hc
    exact ⟨withCap c n, (hf b c h).other n hc⟩

/-- With less than it writes, a run that ends at some capacity overflows. -/
theorem Roomed.overflows_iff {f : β → Except ε γ} (hf : Roomed f) {b : β} {c : γ} (h : f b = .ok c)
    {n : ℕ} (hn : used b ≤ n) : f (withCap b n) = .error overflow ↔ n < used c := by
  refine ⟨fun herror => Nat.lt_of_not_le fun hc => ?_, (hf b c h).short n hn⟩
  rw [(hf b c h).other n hc] at herror
  cases herror

end Capacity
