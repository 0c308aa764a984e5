import Mathlib.Data.List.TakeWhile
import RgcFifa.PathPlaces

/-! The loop of the two parsers: what it does with a component, what it keeps, and that it gives back
the directories of a tidy list. -/

namespace RgcFifa.Path

/-- No separator in it. -/
def Plain (isSep : Char → Bool) (s : List Char) : Prop := ∀ c ∈ s, isSep c = false

instance (isSep : Char → Bool) (s : List Char) : Decidable (Plain isSep s) :=
  inferInstanceAs (Decidable (∀ c ∈ s, isSep c = false))

section

variable {isSep : Char → Bool} {component : Path → List Char → Path} {p : Path} {name rest s : List Char}
  {c : Char}

/-- A string has no separator, or it is what stands before the first one, and the rest. -/
theorem split_first (isSep : Char → Bool) (s : List Char) :
    Plain isSep s ∨ ∃ name c rest, s = name ++ c :: rest ∧ Plain isSep name ∧ isSep c = true := by
  induction s with
  | nil => exact Or.inl (by simp [Plain])
  | cons d s ih =>
    cases hd : isSep d with
    | true => exact Or.inr ⟨[], d, s, rfl, by simp [Plain], hd⟩
    | false =>
      obtain hall | ⟨name, c, rest, rfl, hname, hc⟩ := ih
      · exact Or.inl (by simpa [Plain, hd] using hall)
      · exact Or.inr ⟨d :: name, c, rest, rfl, by simpa [Plain, hd] using hname, hc⟩

theorem takeWhile_plain (h : Plain isSep name) :
    name.takeWhile (!isSep ·) = name ∧ name.dropWhile (!isSep ·) = [] :=
  ⟨List.takeWhile_eq_self_iff.mpr fun c hc => by simp [h c hc],
    List.dropWhile_eq_nil_iff.mpr fun c hc => by simp [h c hc]⟩

theorem takeWhile_first (h : Plain isSep name) (hc : isSep c = true) (rest : List Char) :
    (name ++ c :: rest).takeWhile (!isSep ·) = name ∧ (name ++ c :: rest).dropWhile (!isSep ·) = c :: rest := by
  have hall : ∀ d ∈ name, (!isSep d) = true := fun d hd => by simp [h d hd]
  rw [List.takeWhile_append_of_pos hall, List.dropWhile_append_of_pos hall, List.takeWhile_cons,
    List.dropWhile_cons]
  simp [hc]

theorem parseLoop_last (h : Plain isSep name) (hp : p.name = []) :
    parseLoop isSep component p name = { p with name := name } := by
  obtain ⟨htake, hdrop⟩ := takeWhile_plain h
  rw [parseLoop]
  by_cases hnil : name = []
  · rw [if_pos hnil, hnil, ← hp]
  · rw [if_neg hnil]
    split
    · rw [htake]
    · rename_i hrest
      rw [hdrop] at hrest
      cases hrest

theorem parseLoop_cons (h : Plain isSep name) (hc : isSep c = true) :
    parseLoop isSep component p (name ++ c :: rest) = parseLoop isSep component (component p name) rest := by
  obtain ⟨htake, hdrop⟩ := takeWhile_first h hc rest
  rw [parseLoop, if_neg (by simp)]
  split
  · rename_i hrest
    rw [hdrop] at hrest
    cases hrest
  · rename_i hrest
    rw [hdrop] at hrest
    rw [htake, (List.cons.inj hrest).2]

/-- What each component keeps, with the name still empty, the loop keeps. -/
theorem parseLoop_keeps {P : Path → Prop}
    (hcomp : ∀ p name, Plain isSep name → p.name = [] → P p → P (component p name) ∧ (component p name).name = [])
    (hlast : ∀ p name, Plain isSep name → P p → P { p with name := name })
    (hp : P p) (hname : p.name = []) (s : List Char) : P (parseLoop isSep component p s) := by
  induction hn : s.length using Nat.strong_induction_on generalizing p s with
  | _ n ih =>
    obtain hs | ⟨name, c, rest, rfl, hplain, hc⟩ := split_first isSep s
    · rw [parseLoop_last hs hname]
      exact hlast p s hs hp
    · have hlen : rest.length < n := by
        simp only [List.length_append, List.length_cons] at hn
        omega
      obtain ⟨hp', hname'⟩ := hcomp p name hplain hname hp
      rw [parseLoop_cons hplain hc]
      exact ih _ hlen hp' hname' rest rfl

theorem joined_cons (separator : Char) (d : List Char) (dirs : List (List Char)) (tail : List Char) :
    joined separator (d :: dirs) ++ tail = d ++ separator :: (joined separator dirs ++ tail) := by
  simp [joined]

/-- The loop over the rest of a list of directories appends them, if each component is appended. -/
theorem parseLoop_joined (hc : isSep c = true) (ds : List (List Char)) {es : List (List Char)}
    (hpush : ∀ front d back, es = front ++ d :: back →
      component { p with dirs := ds ++ front } d = { p with dirs := ds ++ front ++ [d] })
    (hplain : ∀ d ∈ es, Plain isSep d) (hp : p.name = []) (hname : Plain isSep name) :
    parseLoop isSep component { p with dirs := ds } (joined c es ++ name)
      = { p with dirs := ds ++ es, name := name } := by
  induction es generalizing ds with
  | nil =>
    have hlast : parseLoop isSep component { p with dirs := ds } name = { p with dirs := ds, name := name } :=
      parseLoop_last hname hp
    simpa [joined] using hlast
  | cons e es ih =>
    have hfirst := hpush [] e es rfl
    rw [List.append_nil] at hfirst
    rw [joined_cons, parseLoop_cons (hplain e (by simp)) hc, hfirst, ih]
    · rw [List.append_assoc, List.singleton_append]
    · intro front d back hes
      have hnext := hpush (e :: front) d back (by rw [hes, List.cons_append])
      simpa using hnext
    · exact fun d hd => hplain d (by simp [hd])

end

/-! ### Directories of a tidy list -/

theorem tidy_ne_nil {absolute : Bool} {dirs : List (List Char)} (h : Tidy absolute dirs) :
    ∀ d ∈ dirs, d ≠ [] := by
  obtain ⟨n, rfl, hn, _⟩ := h
  intro d hd
  obtain hup | hdown := List.mem_append.mp hd
  · rw [List.eq_of_mem_replicate hup]
    decide
  · exact (hn d hdown).1

/-- A component that leaves a list tidy at its end is the one that is appended there. -/
theorem pushDir_tidy {absolute : Bool} {ds es : List (List Char)} {d : List Char}
    (h : Tidy absolute (ds ++ d :: es)) : pushDir absolute ds d = ds ++ [d] := by
  obtain ⟨n, hdirs, hn, hroot⟩ := h
  by_cases hlt : ds.length < n.ups
  · -- one of the `..` in front, behind others
    have hup : ∀ e ∈ ds ++ [d], e = dotdot := by
      intro e he
      have htake : (ds ++ d :: es).take (ds.length + 1) = ds ++ [d] := by
        rw [List.take_length_add_append, List.take_succ_cons, List.take_zero]
      rw [hdirs, encode, List.take_append_of_le_length (by rw [List.length_replicate]; omega)] at htake
      rw [← htake] at he
      exact List.eq_of_mem_replicate (List.mem_of_mem_take he)
    have hd : d = dotdot := hup d (by simp)
    have hrel : absolute = false := by
      cases habs : absolute with
      | false => rfl
      | true => have := hroot habs; omega
    subst hd
    rw [pushDir, if_neg (by decide), if_pos rfl]
    cases hlast : ds.getLast? with
    | none => simp [hrel]
    | some last =>
      have hlast' : last = dotdot := hup last (by simp [List.mem_of_getLast? hlast])
      simp [hrel, hlast']
  · have hname : IsName d := by
      refine hn d ?_
      have hdrop : (ds ++ d :: es).drop ds.length = d :: es := by simp
      rw [hdirs, encode, List.drop_append, List.drop_of_length_le (by simpa using hlt), List.nil_append] at hdrop
      exact List.mem_of_mem_drop (hdrop ▸ List.mem_cons_self)
    rw [pushDir, if_neg (by simp [hname.1, hname.2.1]), if_neg hname.2.2]

theorem pushDir_cases (absolute : Bool) (dirs : List (List Char)) (d : List Char) :
    pushDir absolute dirs d = dirs ∨ pushDir absolute dirs d = dirs.dropLast
      ∨ pushDir absolute dirs d = dirs ++ [d] := by
  rw [pushDir]
  by_cases hnone : d = [] ∨ d = dot
  · simp [hnone]
  · by_cases hup : d = dotdot
    · rw [if_neg hnone, if_pos hup]
      cases dirs.getLast? with
      | none => by_cases habs : absolute = true <;> simp [habs]
      | some last =>
        by_cases hlast : last = dotdot
        · by_cases habs : absolute = true <;> simp [hlast, habs]
        · simp [hlast]
    · simp [hnone, hup]

theorem mem_pushDir {absolute : Bool} {dirs : List (List Char)} {d e : List Char}
    (h : e ∈ pushDir absolute dirs d) : e ∈ dirs ∨ e = d := by
  obtain hp | hp | hp := pushDir_cases absolute dirs d
  · exact Or.inl (hp ▸ h)
  · exact Or.inl (List.mem_of_mem_dropLast (hp ▸ h))
  · simpa [hp] using h

/-- Whatever is pushed, the head stays or the list is empty. -/
theorem head?_pushDir {absolute : Bool} {dirs : List (List Char)} (hne : dirs ≠ []) (d : List Char) :
    ∀ e, (pushDir absolute dirs d).head? = some e → dirs.head? = some e := by
  intro e he
  obtain ⟨f, fs, rfl⟩ := List.exists_cons_of_ne_nil hne
  obtain hp | hp | hp := pushDir_cases absolute (f :: fs) d
  all_goals rw [hp] at he
  · exact he
  · cases fs with
    | nil => simp at he
    | cons g fs => exact he
  · exact he

end RgcFifa.Path
