import RgcFifa.PathParse

/-! The Unix syntax: which paths come back when what is built from them is parsed. -/

namespace RgcFifa.Path

/-! ### What a parse returns -/

structure UnixParsed (p : Path) : Prop where
  node : p.node = []
  version : p.version = []
  tidy : p.IsTidy
  device_plain : Plain unixSep p.device
  dirs_plain : ∀ d ∈ p.dirs, Plain unixSep d
  name_plain : Plain unixSep p.name
  head_plain : ∀ d, p.dirs.head? = some d → d.getLast? ≠ some ':'

theorem UnixParsed.empty (absolute : Bool) : UnixParsed (empty absolute) :=
  ⟨rfl, rfl, ⟨⟨0, []⟩, rfl, by simp, fun _ => rfl⟩, by simp [Plain, Path.empty], by simp [Path.empty],
    by simp [Plain, Path.empty], by simp [Path.empty]⟩

theorem UnixParsed.component {p : Path} (hp : UnixParsed p) {name : List Char} (hname : Plain unixSep name) :
    UnixParsed (p.unixComponent name) := by
  rw [unixComponent]
  by_cases hdev : p.dirs = [] ∧ name.getLast? = some ':'
  · rw [if_pos hdev]
    exact { hp with device_plain := fun c hc => hname c (List.mem_of_mem_dropLast hc) }
  · rw [if_neg hdev]
    refine { hp with
      tidy := (pushDirectory_meaning hp.tidy name).1
      dirs_plain := fun d hd => (mem_pushDir hd).elim (hp.dirs_plain d) fun h => h ▸ hname
      head_plain := fun d hd => ?_ }
    by_cases hnil : p.dirs = []
    · obtain hmem | rfl := mem_pushDir (List.mem_of_head? hd)
      · simp [hnil] at hmem
      · exact fun hcolon => hdev ⟨hnil, hcolon⟩
    · exact hp.head_plain d (head?_pushDir hnil name d hd)

theorem unixComponent_same (p : Path) (name : List Char) :
    (p.unixComponent name).absolute = p.absolute ∧ (p.unixComponent name).name = p.name := by
  rw [unixComponent]
  by_cases hdev : p.dirs = [] ∧ name.getLast? = some ':'
  · rw [if_pos hdev]
    exact ⟨rfl, rfl⟩
  · rw [if_neg hdev]
    exact ⟨rfl, rfl⟩

theorem parseUnixLoop_absolute {p : Path} (hp : p.name = []) (s : List Char) :
    (parseUnixLoop p s).absolute = p.absolute := by
  refine parseLoop_keeps (P := fun q => q.absolute = p.absolute) (fun q name _ hq habs => ?_)
    (fun _ _ _ habs => habs) rfl hp s
  obtain ⟨h₁, h₂⟩ := unixComponent_same q name
  exact ⟨h₁.trans habs, h₂.trans hq⟩

/-- Whatever the string, the loop returns such a path. -/
theorem UnixParsed.loop {p : Path} (hp : UnixParsed p) (hname : p.name = []) (s : List Char) :
    UnixParsed (parseUnixLoop p s) :=
  parseLoop_keeps (fun q name hplain hq h => ⟨h.component hplain, (unixComponent_same q name).2.trans hq⟩)
    (fun _ _ hplain h => { h with name_plain := hplain }) hp hname s

/-! ### Round trip -/

/-- The paths that the Unix syntax can say. -/
structure UnixForm (p : Path) : Prop extends UnixParsed p where
  device_rooted : p.device ≠ [] → p.absolute = true
  no_home : p.absolute = false → p.dirs.head? ≠ some ['~'] ∧ ¬(p.dirs = [] ∧ p.name = ['~'])

theorem UnixForm.loop {p : Path} (hp : UnixForm p) :
    parseUnixLoop { empty p.absolute with device := p.device } (joined '/' p.dirs ++ p.name) = p := by
  have hpush : ∀ front d back, p.dirs = front ++ d :: back →
      unixComponent { empty p.absolute with device := p.device, dirs := front } d
        = { empty p.absolute with device := p.device, dirs := front ++ [d] } := by
    intro front d back hdirs
    have hcolon : ¬(front = [] ∧ d.getLast? = some ':') := fun h =>
      hp.head_plain d (by rw [hdirs, h.1]; rfl) h.2
    have htidy : pushDir p.absolute front d = front ++ [d] := by
      have h := hp.tidy
      rw [IsTidy, hdirs] at h
      exact pushDir_tidy h
    rw [unixComponent, if_neg hcolon, pushDirectory]
    simp only [empty, htidy]
  have hloop := parseLoop_joined (p := { empty p.absolute with device := p.device }) (c := '/') rfl []
    hpush hp.dirs_plain rfl hp.name_plain
  exact hloop.trans (Path.ext hp.node.symm rfl rfl hp.version.symm rfl rfl)

/-- What is built from a relative path starts neither at the root nor in the home directory. -/
theorem UnixForm.head {p : Path} (hp : UnixForm p) (habs : p.absolute = false) :
    (joined '/' p.dirs ++ p.name).head? ≠ some '/' ∧ joined '/' p.dirs ++ p.name ≠ ['~']
      ∧ ∀ rest, joined '/' p.dirs ++ p.name ≠ '~' :: '/' :: rest := by
  obtain ⟨hhead, hname⟩ := hp.no_home habs
  have hnot {s : List Char} (hs : Plain unixSep s) : '/' ∉ s := fun h => by simpa [unixSep] using hs '/' h
  cases hdirs : p.dirs with
  | nil =>
    rw [joined, List.flatMap_nil, List.nil_append]
    refine ⟨fun h => hnot hp.name_plain (List.mem_of_head? h), fun h => hname ⟨hdirs, h⟩, fun rest h => ?_⟩
    exact hnot hp.name_plain (by simp [h])
  | cons d ds =>
    have hplain := hnot (hp.dirs_plain d (by simp [hdirs]))
    obtain ⟨c, d, rfl⟩ := List.exists_cons_of_ne_nil (tidy_ne_nil hp.tidy d (by simp [hdirs]))
    rw [joined_cons, List.cons_append]
    refine ⟨fun h => hplain (by simp [Option.some.inj h]), by simp, fun rest h => ?_⟩
    obtain ⟨rfl, htail⟩ := List.cons.inj h
    cases d with
    | nil => exact hhead (by rw [hdirs]; rfl)
    | cons e d => exact hplain (by simp [(List.cons.inj htail).1])

theorem parseUnix_relative (homeDirs : List (List Char)) {s : List Char} (hslash : s.head? ≠ some '/')
    (hhome : s ≠ ['~']) (hhome' : ∀ rest, s ≠ '~' :: '/' :: rest) :
    parseUnix homeDirs s = parseUnixLoop (empty false) s := by
  unfold parseUnix
  split
  · simp [parseUnixLoop, parseLoop]
  · simp at hslash
  · exact absurd rfl hhome
  · exact absurd rfl (hhome' _)
  · rfl

theorem UnixForm.parse_build (homeDirs : List (List Char)) {p : Path} (hp : UnixForm p) :
    parseUnix homeDirs (buildUnix p) = p := by
  have hloop := hp.loop
  by_cases hdev : p.device = []
  · rw [hdev] at hloop
    cases habs : p.absolute with
    | true =>
      have hbuild : buildUnix p = '/' :: (joined '/' p.dirs ++ p.name) := by simp [buildUnix, hdev, habs]
      rw [habs] at hloop
      rw [hbuild]
      exact hloop
    | false =>
      have hbuild : buildUnix p = joined '/' p.dirs ++ p.name := by simp [buildUnix, hdev, habs]
      obtain ⟨hslash, hhome, hhome'⟩ := hp.head habs
      rw [habs] at hloop
      rw [hbuild, parseUnix_relative homeDirs hslash hhome hhome']
      exact hloop
  · have hbuild : buildUnix p = '/' :: ((p.device ++ [':']) ++ '/' :: (joined '/' p.dirs ++ p.name)) := by
      simp [buildUnix, hdev]
    have hplain : Plain unixSep (p.device ++ [':']) := by
      intro c hc
      obtain h | h := List.mem_append.mp hc
      · exact hp.device_plain c h
      · rw [List.mem_singleton.mp h]
        rfl
    have hcomp : (empty true).unixComponent (p.device ++ [':']) = { empty true with device := p.device } := by
      simp [unixComponent, empty]
    rw [hp.device_rooted hdev] at hloop
    rw [hbuild, parseUnix, parseUnixLoop, parseLoop_cons hplain rfl, hcomp]
    exact hloop

/-- A string that starts at the root or in the home directory gives an absolute path. -/
theorem parseUnix_rooted (homeDirs : List (List Char)) {s : List Char}
    (h : s.head? = some '/' ∨ s = ['~'] ∨ ∃ rest, s = '~' :: '/' :: rest) :
    (parseUnix homeDirs s).absolute = true := by
  obtain h | rfl | ⟨rest, rfl⟩ := h
  · cases s with
    | nil => simp at h
    | cons c s =>
      obtain rfl : c = '/' := Option.some.inj h
      exact parseUnixLoop_absolute (p := empty true) rfl s
  · rfl
  · exact parseUnixLoop_absolute (p := { empty true with dirs := homeDirs }) rfl _

theorem UnixForm.of_parse_build {homeDirs : List (List Char)} {p : Path}
    (h : parseUnix homeDirs (buildUnix p) = p) : UnixForm p := by
  cases habs : p.absolute with
  | true =>
    have hroot : ∃ rest, buildUnix p = '/' :: rest := by
      by_cases hdev : p.device = []
      · exact ⟨joined '/' p.dirs ++ p.name, by simp [buildUnix, hdev, habs]⟩
      · exact ⟨p.device ++ [':', '/'] ++ joined '/' p.dirs ++ p.name, by simp [buildUnix, hdev]⟩
    obtain ⟨rest, hrest⟩ := hroot
    rw [hrest, parseUnix] at h
    have hparsed := (UnixParsed.empty true).loop rfl rest
    rw [h] at hparsed
    exact { hparsed with device_rooted := fun _ => habs, no_home := by simp [habs] }
  | false =>
    have hnot : ¬((buildUnix p).head? = some '/' ∨ buildUnix p = ['~']
        ∨ ∃ rest, buildUnix p = '~' :: '/' :: rest) := by
      intro hstart
      have htrue := parseUnix_rooted homeDirs hstart
      rw [h, habs] at htrue
      cases htrue
    have hdev : p.device = [] := by
      by_contra hdev
      exact hnot (Or.inl (by simp [buildUnix, hdev]))
    have hbuild : buildUnix p = joined '/' p.dirs ++ p.name := by simp [buildUnix, hdev, habs]
    rw [parseUnix_relative homeDirs (fun hs => hnot (Or.inl hs)) (fun hs => hnot (Or.inr (Or.inl hs)))
      (fun rest hs => hnot (Or.inr (Or.inr ⟨rest, hs⟩)))] at h
    have hparsed := (UnixParsed.empty false).loop rfl (buildUnix p)
    rw [h] at hparsed
    refine { hparsed with
      device_rooted := fun hne => absurd hdev hne
      no_home := fun _ => ⟨fun hhead => ?_, fun hname => ?_⟩ }
    · obtain ⟨ds, hdirs⟩ := List.head?_eq_some_iff.mp hhead
      exact hnot (Or.inr (Or.inr ⟨joined '/' ds ++ p.name, by rw [hbuild, hdirs, joined_cons]; rfl⟩))
    · exact hnot (Or.inr (Or.inl (by rw [hbuild, hname.1, hname.2]; rfl)))

/-- A path comes back when what is built from it is parsed exactly if it has this form. -/
theorem parseUnix_buildUnix_iff (homeDirs : List (List Char)) (p : Path) :
    parseUnix homeDirs (buildUnix p) = p ↔ UnixForm p :=
  ⟨UnixForm.of_parse_build, UnixForm.parse_build homeDirs⟩

end RgcFifa.Path
