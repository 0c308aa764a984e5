import RgcFifa.PathParse

/-! The Windows syntax: which paths come back when what is built from them is parsed. -/

namespace RgcFifa.Path

/-! ### What stands in front -/

/-- The string starts neither with a separator nor with one character and a colon. -/
def Undriven (s : List Char) : Prop := (∀ c, s.head? = some c → windowsSep c = false) ∧ s.tail.head? ≠ some ':'

theorem letter_plain {d : Char} (hd : IsLetter d) : windowsSep d = false := by
  have hne : d ≠ '\\' ∧ d ≠ '/' := by
    constructor <;> rintro rfl <;> revert hd <;> decide
  simp [windowsSep, hne.1, hne.2]

theorem parseWindowsHead_relative {s : List Char} (hs : Undriven s) :
    parseWindowsHead s = some (empty false, s) := by
  cases s with
  | nil => rfl
  | cons c s =>
    have hc : windowsSep c = false := hs.1 c rfl
    cases s with
    | nil => simp [parseWindowsHead, hc]
    | cons d s =>
      have hd : d ≠ ':' := fun h => hs.2 (by simp [h])
      simp [parseWindowsHead, hc, hd]

theorem parseWindowsHead_rooted {s : List Char} (hs : Undriven s) :
    parseWindowsHead ('\\' :: s) = some (empty true, s) := by
  have hsep : windowsSep '\\' = true := rfl
  cases s with
  | nil => rfl
  | cons c s =>
    have hc : windowsSep c = false := hs.1 c rfl
    have hd : ¬s.head? = some ':' := hs.2
    simp only [parseWindowsHead, hsep, if_true, hc, Bool.false_eq_true, if_false, if_neg hd]

theorem parseWindowsHead_node {node : List Char} (h : Plain windowsSep node) (rest : List Char) :
    parseWindowsHead ('\\' :: '\\' :: (node ++ '\\' :: rest)) = some ({ empty true with node := node }, rest) := by
  have hsep : windowsSep '\\' = true := rfl
  obtain ⟨htake, hdrop⟩ := takeWhile_first h hsep rest
  simp only [parseWindowsHead, hsep, if_true, htake, hdrop, List.tail_cons]

theorem parseWindowsHead_device {d : Char} (hd : IsLetter d) (rest : List Char) :
    parseWindowsHead (d :: ':' :: '\\' :: rest) = some ({ empty true with device := [d] }, rest) := by
  have hsep : windowsSep '\\' = true := rfl
  simp only [parseWindowsHead, letter_plain hd, Bool.false_eq_true, if_false, if_pos hd, hsep, if_true]

/-- What is returned, in each case. -/
theorem parseWindowsHead_cases {s rest : List Char} {p : Path} (h : parseWindowsHead s = some (p, rest)) :
    (∃ node c d t, s = c :: d :: t ∧ windowsSep d = true ∧ Plain windowsSep node
        ∧ p = { empty true with node := node })
      ∨ (∃ d, IsLetter d ∧ p = { empty true with device := [d] })
      ∨ (∃ c, windowsSep c = true ∧ s = c :: rest ∧ Undriven rest ∧ p = empty true)
      ∨ Undriven s ∧ p = empty false := by
  cases s with
  | nil =>
    obtain ⟨rfl, rfl⟩ := Prod.mk.inj (Option.some.inj h)
    exact Or.inr (Or.inr (Or.inr ⟨⟨by simp, by simp⟩, rfl⟩))
  | cons c s =>
    cases hc : windowsSep c with
    | true =>
      cases s with
      | nil =>
        simp only [parseWindowsHead, hc, if_true] at h
        obtain ⟨rfl, rfl⟩ := Prod.mk.inj (Option.some.inj h)
        exact Or.inr (Or.inr (Or.inl ⟨c, hc, rfl, ⟨by simp, by simp⟩, rfl⟩))
      | cons d s =>
        cases hd : windowsSep d with
        | true =>
          simp only [parseWindowsHead, hc, if_true, hd] at h
          obtain ⟨rfl, rfl⟩ := Prod.mk.inj (Option.some.inj h)
          refine Or.inl ⟨_, c, d, s, rfl, hd, fun e he => ?_, rfl⟩
          simpa using List.mem_takeWhile_imp he
        | false =>
          simp only [parseWindowsHead, hc, if_true, hd, Bool.false_eq_true, if_false] at h
          by_cases hcolon : s.head? = some ':'
          · simp [hcolon] at h
          · rw [if_neg hcolon] at h
            obtain ⟨rfl, rfl⟩ := Prod.mk.inj (Option.some.inj h)
            exact Or.inr (Or.inr (Or.inl ⟨c, hc, rfl, ⟨by simp [hd], hcolon⟩, rfl⟩))
    | false =>
      cases s with
      | nil =>
        simp only [parseWindowsHead, hc, Bool.false_eq_true, if_false] at h
        obtain ⟨rfl, rfl⟩ := Prod.mk.inj (Option.some.inj h)
        exact Or.inr (Or.inr (Or.inr ⟨⟨by simp [hc], by simp⟩, rfl⟩))
      | cons d s =>
        by_cases hd : d = ':'
        · subst hd
          by_cases hletter : IsLetter c
          · cases s with
            | nil => simp [parseWindowsHead, hc, hletter] at h
            | cons e s =>
              by_cases he : windowsSep e = true
              · simp only [parseWindowsHead, hc, Bool.false_eq_true, if_false, if_pos hletter, if_pos he] at h
                obtain ⟨rfl, rfl⟩ := Prod.mk.inj (Option.some.inj h)
                exact Or.inr (Or.inl ⟨c, hletter, rfl⟩)
              · simp [parseWindowsHead, hc, hletter, he] at h
          · simp [parseWindowsHead, hc, hletter] at h
        · have hrel : Undriven (c :: d :: s) := ⟨by simp [hc], by simp [hd]⟩
          rw [parseWindowsHead_relative hrel] at h
          obtain ⟨rfl, rfl⟩ := Prod.mk.inj (Option.some.inj h)
          exact Or.inr (Or.inr (Or.inr ⟨hrel, rfl⟩))

/-! ### What a parse returns -/

structure WindowsParsed (p : Path) : Prop where
  version : p.version = []
  tidy : p.IsTidy
  node_plain : Plain windowsSep p.node
  dirs_plain : ∀ d ∈ p.dirs, Plain windowsSep d
  name_plain : Plain windowsSep p.name
  node_rooted : p.node ≠ [] → p.absolute = true ∧ p.device = []
  device_letter : p.device ≠ [] → p.absolute = true ∧ ∃ d, IsLetter d ∧ p.device = [d]

theorem WindowsParsed.start {s rest : List Char} {p : Path} (h : parseWindowsHead s = some (p, rest)) :
    WindowsParsed p ∧ p.name = [] := by
  have htidy (absolute : Bool) : Tidy absolute [] := ⟨⟨0, []⟩, rfl, by simp, fun _ => rfl⟩
  have hnil : Plain windowsSep [] := by simp [Plain]
  obtain ⟨node, _, _, _, _, _, hnode, rfl⟩ | ⟨d, hd, rfl⟩ | ⟨c, _, _, _, rfl⟩ | ⟨_, rfl⟩ :=
    parseWindowsHead_cases h
  · exact ⟨⟨rfl, htidy true, hnode, by simp [empty], hnil, fun _ => ⟨rfl, rfl⟩, by simp [empty]⟩, rfl⟩
  · exact ⟨⟨rfl, htidy true, hnil, by simp [empty], hnil, by simp [empty], fun _ => ⟨rfl, d, hd, rfl⟩⟩, rfl⟩
  · exact ⟨⟨rfl, htidy true, hnil, by simp [empty], hnil, by simp [empty], by simp [empty]⟩, rfl⟩
  · exact ⟨⟨rfl, htidy false, hnil, by simp [empty], hnil, by simp [empty], by simp [empty]⟩, rfl⟩

theorem WindowsParsed.pushDirectory {p : Path} (hp : WindowsParsed p) {name : List Char}
    (hname : Plain windowsSep name) : WindowsParsed (p.pushDirectory name) :=
  { hp with
    tidy := (pushDirectory_meaning hp.tidy name).1
    dirs_plain := fun d hd => (mem_pushDir hd).elim (hp.dirs_plain d) fun h => h ▸ hname }

theorem WindowsParsed.loop {p : Path} (hp : WindowsParsed p) (hname : p.name = []) (s : List Char) :
    WindowsParsed (parseWindowsLoop p s) := by
  refine parseLoop_keeps (P := WindowsParsed) ?_ ?_ hp hname s
  · exact fun q name hplain hq h => ⟨h.pushDirectory hplain, hq⟩
  · exact fun q name hplain h => { h with name_plain := hplain }

/-- The loop leaves what was read in front. -/
theorem parseWindowsLoop_same {p : Path} (hp : p.name = []) (s : List Char) :
    (parseWindowsLoop p s).node = p.node ∧ (parseWindowsLoop p s).device = p.device
      ∧ (parseWindowsLoop p s).absolute = p.absolute := by
  refine parseLoop_keeps (P := fun q => q.node = p.node ∧ q.device = p.device ∧ q.absolute = p.absolute)
    ?_ ?_ ⟨rfl, rfl, rfl⟩ hp s
  · exact fun q name _ hq h => ⟨h, hq⟩
  · exact fun q name _ h => h

/-! ### Round trip -/

/-- The paths that the Windows syntax can say. -/
structure WindowsForm (p : Path) : Prop extends WindowsParsed p where
  not_shared : ¬p.Shared
  no_drive : p.node = [] → p.device = [] → (p.dirs.head?.getD p.name).tail.head? ≠ some ':'

theorem WindowsForm.loop {p : Path} (hp : WindowsForm p) :
    parseWindowsLoop { empty p.absolute with node := p.node, device := p.device }
      (joined '\\' p.dirs ++ p.name) = p := by
  have hpush : ∀ front d back, p.dirs = front ++ d :: back →
      Path.pushDirectory { empty p.absolute with node := p.node, device := p.device, dirs := front } d
        = { empty p.absolute with node := p.node, device := p.device, dirs := front ++ [d] } := by
    intro front d back hdirs
    have htidy : pushDir p.absolute front d = front ++ [d] := by
      have h := hp.tidy
      rw [IsTidy, hdirs] at h
      exact pushDir_tidy h
    rw [pushDirectory]
    simp only [empty, htidy]
  have hloop := parseLoop_joined (p := { empty p.absolute with node := p.node, device := p.device })
    (c := '\\') rfl [] hpush hp.dirs_plain rfl hp.name_plain
  exact hloop.trans (Path.ext rfl rfl rfl hp.version.symm rfl rfl)

/-- What is built after the front starts like the first component, and not with a separator. -/
theorem joined_start {p : Path} (hp : WindowsParsed p) :
    (∀ c, (joined '\\' p.dirs ++ p.name).head? = some c → windowsSep c = false)
      ∧ ((joined '\\' p.dirs ++ p.name).tail.head? = some ':'
        ↔ (p.dirs.head?.getD p.name).tail.head? = some ':') := by
  cases hdirs : p.dirs with
  | nil =>
    rw [joined, List.flatMap_nil, List.nil_append]
    exact ⟨fun c hc => hp.name_plain c (List.mem_of_head? hc), Iff.rfl⟩
  | cons d ds =>
    have hplain := hp.dirs_plain d (by simp [hdirs])
    obtain ⟨c, d, rfl⟩ := List.exists_cons_of_ne_nil (tidy_ne_nil hp.tidy d (by simp [hdirs]))
    rw [joined_cons]
    refine ⟨fun e he => hplain e (by simp [Option.some.inj he]), ?_⟩
    cases d <;> simp

theorem WindowsForm.undriven {p : Path} (hp : WindowsForm p) (hnode : p.node = []) (hdev : p.device = []) :
    Undriven (joined '\\' p.dirs ++ p.name) := by
  obtain ⟨hsep, hcolon⟩ := joined_start hp.toWindowsParsed
  exact ⟨hsep, fun h => hp.no_drive hnode hdev (hcolon.mp h)⟩

theorem parseWindows_of_head {s rest : List Char} {p q : Path} (h : parseWindowsHead s = some (p, rest))
    (hloop : parseWindowsLoop p rest = q) (hq : ¬q.Shared) : parseWindows s = some q := by
  simp only [parseWindows, h, Option.bind_eq_bind, Option.bind_some, hloop]
  rw [if_neg hq]

theorem WindowsForm.parse_build {p : Path} (hp : WindowsForm p) :
    parseWindows (buildWindows p) = some p := by
  have hloop := hp.loop
  by_cases hnode : p.node = []
  · by_cases hdev : p.device = []
    · have hundriven := hp.undriven hnode hdev
      rw [hnode, hdev] at hloop
      cases habs : p.absolute with
      | true =>
        have hbuild : buildWindows p = '\\' :: (joined '\\' p.dirs ++ p.name) := by
          simp [buildWindows, hnode, hdev, habs]
        rw [habs] at hloop
        rw [hbuild]
        exact parseWindows_of_head (parseWindowsHead_rooted hundriven) hloop hp.not_shared
      | false =>
        have hbuild : buildWindows p = joined '\\' p.dirs ++ p.name := by
          simp [buildWindows, hnode, hdev, habs]
        rw [habs] at hloop
        rw [hbuild]
        exact parseWindows_of_head (parseWindowsHead_relative hundriven) hloop hp.not_shared
    · obtain ⟨habs, d, hd, hdevice⟩ := hp.device_letter hdev
      have hbuild : buildWindows p = d :: ':' :: '\\' :: (joined '\\' p.dirs ++ p.name) := by
        simp [buildWindows, hnode, hdevice]
      rw [hnode, hdevice, habs] at hloop
      rw [hbuild]
      exact parseWindows_of_head (parseWindowsHead_device hd _) hloop hp.not_shared
  · obtain ⟨habs, hdev⟩ := hp.node_rooted hnode
    have hbuild : buildWindows p = '\\' :: '\\' :: (p.node ++ '\\' :: (joined '\\' p.dirs ++ p.name)) := by
      simp [buildWindows, hnode]
    rw [hdev, habs] at hloop
    rw [hbuild]
    exact parseWindows_of_head (parseWindowsHead_node hp.node_plain _) hloop hp.not_shared

/-- A parse that succeeds, by the front that it read. -/
theorem parseWindows_some {s : List Char} {p : Path} (h : parseWindows s = some p) :
    ∃ q rest, parseWindowsHead s = some (q, rest) ∧ WindowsParsed p ∧ ¬p.Shared
      ∧ p.node = q.node ∧ p.device = q.device ∧ p.absolute = q.absolute := by
  cases hhead : parseWindowsHead s with
  | none => simp [parseWindows, hhead] at h
  | some front =>
    obtain ⟨q, rest⟩ := front
    obtain ⟨hq, hqname⟩ := WindowsParsed.start hhead
    have hparsed := hq.loop hqname rest
    obtain ⟨hnode, hdev, habs⟩ := parseWindowsLoop_same hqname rest
    simp only [parseWindows, hhead, Option.bind_eq_bind, Option.bind_some] at h
    have hp := Option.some.inj h
    refine ⟨q, rest, rfl, ?_⟩
    by_cases hshared : (parseWindowsLoop q rest).Shared
    · rw [if_pos hshared] at hp
      have hdir := hparsed.pushDirectory hparsed.name_plain
      subst hp
      exact ⟨{ hdir with version := rfl, name_plain := by simp [Plain, makeDirectory] },
        fun hs => hs.2.2 rfl, hnode, hdev, habs⟩
    · rw [if_neg hshared] at hp
      subst hp
      exact ⟨hparsed, hshared, hnode, hdev, habs⟩

theorem WindowsForm.of_parse_build {p : Path} (h : parseWindows (buildWindows p) = some p) :
    WindowsForm p := by
  obtain ⟨q, rest, hhead, hparsed, hshared, hnode', hdev', habs'⟩ := parseWindows_some h
  refine { hparsed with not_shared := hshared, no_drive := fun hnode hdev => ?_ }
  obtain ⟨hsep, hcolon⟩ := joined_start hparsed
  rw [Ne, ← hcolon]
  obtain ⟨node, c, d, t, hs, hd, _, rfl⟩ | ⟨d, hd, rfl⟩ | ⟨c, hc, hs, hundriven, rfl⟩ | ⟨hundriven, rfl⟩ :=
    parseWindowsHead_cases hhead
  · have hbuild : buildWindows p = '\\' :: (joined '\\' p.dirs ++ p.name) := by
      simp [buildWindows, hnode, hdev, habs', empty]
    rw [hbuild] at hs
    have hplain := hsep d (by rw [(List.cons.inj hs).2]; rfl)
    rw [hd] at hplain
    cases hplain
  · rw [hdev] at hdev'
    cases hdev'
  · have hbuild : buildWindows p = '\\' :: (joined '\\' p.dirs ++ p.name) := by
      simp [buildWindows, hnode, hdev, habs', empty]
    rw [hbuild] at hs
    rw [(List.cons.inj hs).2]
    exact hundriven.2
  · have hbuild : buildWindows p = joined '\\' p.dirs ++ p.name := by
      simp [buildWindows, hnode, hdev, habs', empty]
    rw [← hbuild]
    exact hundriven.2

/-- A path comes back when what is built from it is parsed exactly if it has this form. -/
theorem parseWindows_buildWindows_iff (p : Path) :
    parseWindows (buildWindows p) = some p ↔ WindowsForm p :=
  ⟨WindowsForm.of_parse_build, WindowsForm.parse_build⟩

end RgcFifa.Path
