import Mathlib.Data.List.TakeWhile
import Mathlib.Tactic

/-! `StringTokenizer` without options. Two separators have an empty token between them, but there is
none after the last separator. -/

namespace RgcFifa

def StringTokenizer (separators : List Char) : List Char → List (List Char)
  | [] => []
  | c :: str =>
    let token := (c :: str).takeWhile (· ∉ separators)
    token :: StringTokenizer separators ((c :: str).drop (token.length + 1))
termination_by str => str.length
decreasing_by simp

variable {separators : List Char} {token rest : List Char} {c : Char}

theorem tokenizer_nil : StringTokenizer separators [] = [] := by rw [StringTokenizer]

theorem tokenizer_step {str : List Char} (hstr : str ≠ []) :
    StringTokenizer separators str = str.takeWhile (· ∉ separators) ::
      StringTokenizer separators (str.drop ((str.takeWhile (· ∉ separators)).length + 1)) := by
  cases str with
  | nil => exact absurd rfl hstr
  | cons c str => rw [StringTokenizer]

theorem takeWhile_token (htoken : ∀ d ∈ token, d ∉ separators) (hc : c ∈ separators) :
    (token ++ c :: rest).takeWhile (· ∉ separators) = token := by
  have hall : ∀ d ∈ token, decide (d ∉ separators) = true := fun d hd => decide_eq_true (htoken d hd)
  rw [List.takeWhile_append_of_pos hall, List.takeWhile_cons_of_neg (by simpa using hc),
    List.append_nil]

theorem tokenizer_cons (htoken : ∀ d ∈ token, d ∉ separators) (hc : c ∈ separators) :
    StringTokenizer separators (token ++ c :: rest) =
      token :: StringTokenizer separators rest := by
  have hdrop : (token ++ c :: rest).drop (token.length + 1) = rest := by
    rw [List.drop_append, List.drop_eq_nil_of_le (Nat.le_succ _)]
    simp
  rw [tokenizer_step (by simp), takeWhile_token htoken hc, hdrop]

theorem tokenizer_last (htoken : ∀ d ∈ token, d ∉ separators) (hne : token ≠ []) :
    StringTokenizer separators token = [token] := by
  have hall : ∀ d ∈ token, decide (d ∉ separators) = true := fun d hd => decide_eq_true (htoken d hd)
  have htake : token.takeWhile (· ∉ separators) = token := List.takeWhile_eq_self_iff.mpr hall
  rw [tokenizer_step hne, htake, List.drop_eq_nil_of_le (Nat.le_succ _), tokenizer_nil]

/-- Words, of which any may be empty, without the last if it is. -/
def trimmed {α : Type*} : List (Option α) → List (Option α)
  | [] => []
  | [none] => []
  | w :: ws => w :: trimmed ws

section

variable {α : Type*} {ws : List (Option α)} {text : Option α → List Char}

theorem trimmed_cons_cons (w v : Option α) (ws : List (Option α)) :
    trimmed (w :: v :: ws) = w :: trimmed (v :: ws) := by
  cases w <;> rfl

theorem some_mem_trimmed {a : α} : some a ∈ trimmed ws ↔ some a ∈ ws := by
  induction ws with
  | nil => exact Iff.rfl
  | cons w ws ih =>
    cases ws with
    | nil => cases w <;> simp [trimmed]
    | cons v ws => rw [trimmed_cons_cons, List.mem_cons, ih, List.mem_cons (b := w)]

theorem none_mem_trimmed : none ∈ trimmed ws ↔ none ∈ ws.dropLast := by
  induction ws with
  | nil => exact Iff.rfl
  | cons w ws ih =>
    cases ws with
    | nil => cases w <;> simp [trimmed]
    | cons v ws =>
      rw [trimmed_cons_cons, List.dropLast_cons_of_ne_nil (List.cons_ne_nil _ _), List.mem_cons, ih,
        List.mem_cons]

/-- The tokens are the words that were joined. -/
theorem tokenizer_intercalate (hnone : text none = []) (hsome : ∀ a, text (some a) ≠ [])
    (hfree : ∀ w ∈ ws, c ∉ text w) :
    StringTokenizer [c] ([c].intercalate (ws.map text)) = (trimmed ws).map text := by
  induction ws with
  | nil => exact tokenizer_nil
  | cons w ws ih =>
    obtain ⟨hw, hws⟩ := List.forall_mem_cons.mp hfree
    have htoken : ∀ d ∈ text w, d ∉ [c] := by
      intro d hd hc
      rw [List.mem_singleton] at hc
      exact hw (hc ▸ hd)
    cases ws with
    | nil =>
      cases w with
      | none => simp [hnone, trimmed, tokenizer_nil]
      | some a => simpa [trimmed] using tokenizer_last htoken (hsome a)
    | cons v ws =>
      have hjoin : [c].intercalate ((w :: v :: ws).map text) =
          text w ++ c :: [c].intercalate ((v :: ws).map text) := by
        simp [List.intercalate]
      rw [hjoin, tokenizer_cons htoken (List.mem_singleton_self c), ih hws, trimmed_cons_cons,
        List.map_cons]

end

end RgcFifa
