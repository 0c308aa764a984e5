import RgcFifa.Lib.Faulting
import RgcFifa.PathUnix

/-! The directories that `File::createDirectories` makes on a disk of directories and files. -/

namespace RgcFifa.File

open RgcFifa.Path

/-! ### The disk -/

inductive Kind where
  | directory
  | regular
  deriving DecidableEq, Repr

/-- What is at each place, by the names from the root, and the current directory; without links. -/
structure Disk where
  kind : List (List Char) → Option Kind
  cwd : List (List Char)

/-- What stands between slashes. -/
def components : List Char → List (List Char)
  | [] => [[]]
  | c :: s =>
    if c = '/' then [] :: components s
    else
      match components s with
      | [] => [[c]]
      | d :: ds => (c :: d) :: ds

namespace Disk

/-- The place that the components lead to. Each is looked up in a directory. -/
def resolve (d : Disk) (σ : List (List Char)) : List (List Char) → Option (List (List Char))
  | [] => some σ
  | c :: cs =>
    if d.kind σ ≠ some .directory then none
    else if c = [] ∨ c = dot then d.resolve σ cs
    else if c = dotdot then d.resolve σ.dropLast cs
    else if d.kind (σ ++ [c]) = none then none
    else d.resolve (σ ++ [c]) cs

def root (d : Disk) (path : List Char) : List (List Char) := if path.head? = some '/' then [] else d.cwd

/-- `stat`: nothing is at the empty path. -/
def stat (d : Disk) (path : List Char) : Option Kind :=
  if path = [] then none else (d.resolve (d.root path) (components path)).bind d.kind

def put (d : Disk) (σ : List (List Char)) (k : Kind) : Disk := { d with kind := Function.update d.kind σ (some k) }

/-- `mkdir`: the last name must be new in a directory. -/
def mkdir (d : Disk) (path : List Char) : Disk × Bool :=
  let cs := (components path).reverse.dropWhile (· = [])
  match cs with
  | [] => (d, false)
  | name :: parents =>
    match d.resolve (d.root path) parents.reverse with
    | none => (d, false)
    | some σ =>
      if name = dot ∨ name = dotdot ∨ d.kind σ ≠ some .directory ∨ d.kind (σ ++ [name]) ≠ none then (d, false)
      else (d.put (σ ++ [name]) .directory, true)

end Disk

/-! ### The code -/

/-- `FileImpl(const std::string& path)` -/
def filePath (path : List Char) : List Char :=
  if path.length > 1 ∧ path.getLast? = some '/' then path.dropLast else path

/-- The assertion that the path is not empty, what `handleLastErrorImpl` throws, and a recursion without end. -/
inductive Stop where
  | assertion
  | lastError
  | stack
  deriving DecidableEq, Repr

def existsImpl (d : Disk) (path : List Char) : Except Stop Bool :=
  if path = [] then .error .assertion else .ok (d.stat path).isSome

def isDirectoryImpl (d : Disk) (path : List Char) : Except Stop Bool :=
  if path = [] then .error .assertion
  else
    match d.stat path with
    | none => .error .lastError
    | some k => .ok (k = .directory)

/-- A failure of `mkdir` is printed and goes unnoticed otherwise. -/
def createDirectoryImpl (d : Disk) (path : List Char) : Except Stop Disk := do
  if ← existsImpl d path then
    if ← isDirectoryImpl d path then return d
  return (d.mkdir path).1

/-- `depth` is a bound on the calls under way. -/
def createDirectories (homeDirs : List (List Char)) : ℕ → Disk → List Char → Except Stop Disk
  | 0, _, _ => .error .stack
  | depth + 1, d, path => do
    if ← existsImpl d path then return d
    let p := (parseUnix homeDirs path).makeDirectory
    let d ← if p.dirs.length > 1 then createDirectories homeDirs depth d (filePath (buildUnix p.makeParent))
      else pure d
    createDirectoryImpl d path

/-! ### Lookups on a disk -/

/-- What is on the disk is in a directory, and the current directory is there. -/
structure Disk.Sound (d : Disk) : Prop where
  root : d.kind [] = some .directory
  closed : ∀ σ c, d.kind (σ ++ [c]) ≠ none → d.kind σ = some .directory
  cwd : d.kind d.cwd = some .directory

namespace Disk

variable {d : Disk}

theorem Sound.above (hd : d.Sound) {σ τ : List (List Char)} (hτ : τ ≠ []) (h : d.kind (σ ++ τ) ≠ none) :
    d.kind σ = some .directory := by
  induction τ using List.reverseRecOn with
  | nil => exact absurd rfl hτ
  | append_singleton τ c ih =>
    rw [← List.append_assoc] at h
    have hup := hd.closed _ _ h
    by_cases hnil : τ = []
    · simpa [hnil] using hup
    · exact ih hnil (by simp [hup])

theorem Sound.take (hd : d.Sound) {σ : List (List Char)} (h : d.kind σ = some .directory) (n : ℕ) :
    d.kind (σ.take n) = some .directory := by
  by_cases hlt : n < σ.length
  · refine hd.above (τ := σ.drop n) (by simpa using hlt) ?_
    rw [List.take_append_drop, h]
    simp
  · rw [List.take_of_length_le (not_lt.mp hlt), h]

theorem Sound.resolve_names (hd : d.Sound) {σ cs : List (List Char)} (hσ : d.kind σ ≠ none)
    (hcs : ∀ c ∈ cs, IsName c) :
    d.resolve σ cs = if d.kind (σ ++ cs) = none then none else some (σ ++ cs) := by
  induction cs generalizing σ with
  | nil => simp [resolve, hσ]
  | cons c cs ih =>
    have hc := hcs c (by simp)
    have hstep : d.kind σ = some .directory → d.resolve σ (c :: cs)
        = if d.kind (σ ++ [c]) = none then none else d.resolve (σ ++ [c]) cs := by
      intro hdir
      rw [resolve, if_neg (by simp [hdir]), if_neg (by simp [hc.1, hc.2.1]), if_neg hc.2.2]
    by_cases hdir : d.kind σ = some .directory
    · rw [hstep hdir]
      by_cases hnone : d.kind (σ ++ [c]) = none
      · have hbelow : d.kind (σ ++ c :: cs) = none := by
          by_contra hbelow
          have happ : σ ++ c :: cs = (σ ++ [c]) ++ cs := by simp
          by_cases hnil : cs = []
          · exact hbelow (by rw [happ, hnil, List.append_nil, hnone])
          · have := hd.above hnil (happ ▸ hbelow)
            simp [hnone] at this
        rw [if_pos hnone, if_pos hbelow]
      · rw [if_neg hnone, ih hnone fun e he => hcs e (by simp [he])]
        simp
    · have hbelow : d.kind (σ ++ c :: cs) = none := by
        by_contra hbelow
        exact hdir (hd.above (by simp) hbelow)
      rw [resolve, if_pos hdir, if_pos hbelow]

theorem Sound.resolve_ups (hd : d.Sound) {σ : List (List Char)} (hσ : d.kind σ = some .directory) (k : ℕ)
    (cs : List (List Char)) :
    d.resolve σ (List.replicate k dotdot ++ cs) = d.resolve (σ.take (σ.length - k)) cs := by
  induction k generalizing σ with
  | zero => simp
  | succ k ih =>
    have hdrop : σ.dropLast = σ.take (σ.length - 1) := List.dropLast_eq_take
    rw [List.replicate_succ, List.cons_append, resolve, if_neg (by simp [hσ]), if_neg (by decide), if_pos rfl,
      hdrop, ih (hd.take hσ _), List.take_take, List.length_take]
    congr 2
    omega

/-- A walk along a tidy list ends at its place, if there is something. -/
theorem Sound.resolve_tidy (hd : d.Sound) {σ : List (List Char)} (hσ : d.kind σ = some .directory)
    {absolute : Bool} {dirs : List (List Char)} (h : Tidy absolute dirs) :
    d.resolve σ dirs = if d.kind (walkDirs σ dirs) = none then none else some (walkDirs σ dirs) := by
  obtain ⟨n, rfl, hn, _⟩ := h
  rw [walkDirs, filterMap_encode hn, Lexical.Normal.walk_moves, encode, hd.resolve_ups hσ,
    hd.resolve_names (by simp [hd.take hσ]) hn]

end Disk

/-! ### The text of a directory -/

theorem components_plain {d : List Char} (h : Plain unixSep d) : components d = [d] := by
  induction d with
  | nil => rfl
  | cons c d ih =>
    have hc : c ≠ '/' := by simpa [unixSep] using h c (by simp)
    rw [components, if_neg hc, ih fun e he => h e (by simp [he])]

theorem components_cons {d : List Char} (h : Plain unixSep d) (s : List Char) :
    components (d ++ '/' :: s) = d :: components s := by
  induction d with
  | nil => simp [components]
  | cons c d ih =>
    have hc : c ≠ '/' := by simpa [unixSep] using h c (by simp)
    rw [List.cons_append, components, if_neg hc, ih fun e he => h e (by simp [he])]

theorem components_joined {ds : List (List Char)} {c : List Char} (hds : ∀ d ∈ ds, Plain unixSep d)
    (hc : Plain unixSep c) : components (joined '/' ds ++ c) = ds ++ [c] := by
  induction ds with
  | nil => simpa [joined] using components_plain hc
  | cons d ds ih =>
    rw [joined_cons, components_cons (hds d (by simp)), ih fun e he => hds e (by simp [he])]
    rfl

def ofDirs (absolute : Bool) (dirs : List (List Char)) : Path := { empty absolute with dirs := dirs }

/-- The path of a directory, as `FileImpl` keeps it. -/
def text (absolute : Bool) (dirs : List (List Char)) : List Char := filePath (buildUnix (ofDirs absolute dirs))

section

variable {absolute : Bool} {ds : List (List Char)} {c : List Char}

theorem tidy_dropLast (h : Tidy absolute (ds ++ [c])) : Tidy absolute ds := by
  obtain ⟨n, hdirs, hn, hroot⟩ := h
  obtain hnil | ⟨downs, last, hdowns⟩ := List.eq_nil_or_concat n.downs
  · cases hups : n.ups with
    | zero => simp [encode, hnil, hups] at hdirs
    | succ k =>
      rw [encode, hnil, hups, List.append_nil, List.replicate_succ'] at hdirs
      refine ⟨⟨k, []⟩, ?_, by simp, fun habs => ?_⟩
      · rw [(List.append_inj' hdirs rfl).1, encode, List.append_nil]
      · simp [hroot habs] at hups
  · rw [encode, hdowns, List.concat_eq_append, ← List.append_assoc] at hdirs
    refine ⟨⟨n.ups, downs⟩, (List.append_inj' hdirs rfl).1, fun d hd => hn d ?_, hroot⟩
    simp [hdowns, hd]

/-- The same directory with its last name as a file name. -/
theorem form_makeFile (hq : UnixForm (ofDirs absolute (ds ++ [c]))) :
    UnixForm { ofDirs absolute ds with name := c } := by
  refine ⟨⟨rfl, rfl, tidy_dropLast hq.tidy, by simp [Plain, ofDirs, empty], fun d hd => hq.dirs_plain d ?_,
    hq.dirs_plain c (by simp [ofDirs]), fun d hd => hq.head_plain d ?_⟩, by simp [ofDirs, empty], fun habs => ?_⟩
  · exact List.mem_append_left _ hd
  · have hhead : ds.head? = some d := hd
    simp [ofDirs, hhead]
  · have hhome := (hq.no_home habs).1
    refine ⟨fun h => hhome ?_, fun h => hhome ?_⟩
    · have hhead : ds.head? = some ['~'] := h
      simp [ofDirs, hhead]
    obtain ⟨rfl, rfl⟩ : ds = [] ∧ c = ['~'] := h
    rfl

theorem text_eq (hq : UnixForm (ofDirs absolute (ds ++ [c]))) :
    text absolute (ds ++ [c]) = (if absolute then ['/'] else []) ++ (joined '/' ds ++ c) := by
  have hne : c ≠ [] := tidy_ne_nil hq.tidy c (by simp [ofDirs])
  have hbuild : buildUnix (ofDirs absolute (ds ++ [c]))
      = ((if absolute then ['/'] else []) ++ (joined '/' ds ++ c)) ++ ['/'] := by
    cases absolute <;> simp [buildUnix, ofDirs, empty, joined]
  rw [text, hbuild, filePath, if_pos ?_, List.dropLast_concat]
  refine ⟨?_, List.getLast?_concat⟩
  have hlen := List.length_pos_of_ne_nil hne
  simp only [List.length_append, List.length_cons, List.length_nil]
  omega

theorem parse_text (homeDirs : List (List Char)) (hq : UnixForm (ofDirs absolute (ds ++ [c]))) :
    (parseUnix homeDirs (text absolute (ds ++ [c]))).makeDirectory = ofDirs absolute (ds ++ [c]) := by
  have hbuild : text absolute (ds ++ [c]) = buildUnix { ofDirs absolute ds with name := c } := by
    rw [text_eq hq]
    cases absolute <;> simp [buildUnix, ofDirs, empty]
  rw [hbuild, (form_makeFile hq).parse_build]
  have htidy : Tidy absolute (ds ++ c :: []) := hq.tidy
  have hpush : pushDir absolute ds c = ds ++ [c] := pushDir_tidy htidy
  simp only [makeDirectory, pushDirectory, ofDirs, empty, hpush]

theorem text_ne_nil (hq : UnixForm (ofDirs absolute (ds ++ [c]))) : text absolute (ds ++ [c]) ≠ [] := by
  have hne : c ≠ [] := tidy_ne_nil hq.tidy c (by simp [ofDirs])
  rw [text_eq hq]
  simp [hne]

theorem components_text (hq : UnixForm (ofDirs absolute (ds ++ [c]))) :
    components (text absolute (ds ++ [c])) = (if absolute then [[]] else []) ++ (ds ++ [c]) := by
  have hplain : components (joined '/' ds ++ c) = ds ++ [c] :=
    components_joined (fun d hd => hq.dirs_plain d (List.mem_append_left _ hd)) (hq.dirs_plain c (by simp [ofDirs]))
  rw [text_eq hq]
  cases absolute with
  | false => exact hplain
  | true => simp [components, hplain]

theorem head_text (hq : UnixForm (ofDirs absolute (ds ++ [c]))) :
    (text absolute (ds ++ [c])).head? = some '/' ↔ absolute = true := by
  rw [text_eq hq]
  cases absolute with
  | true => simp
  | false =>
    have hhead := ((form_makeFile hq).head rfl).1
    have hsame : (joined '/' (ofDirs false ds).dirs ++ c).head? ≠ some '/' := hhead
    simpa [ofDirs] using hsame

/-! ### The effect -/

/-- Where a directory path leads. -/
def place (d : Disk) (absolute : Bool) (dirs : List (List Char)) : List (List Char) :=
  walkDirs (if absolute then [] else d.cwd) dirs

variable {d : Disk}

theorem kind_start (hd : d.Sound) (absolute : Bool) :
    d.kind (if absolute then [] else d.cwd) = some .directory := by
  cases absolute with
  | true => exact hd.root
  | false => exact hd.cwd

/-- The lookup of the text, up to the name. -/
theorem resolve_text (hd : d.Sound) (hq : UnixForm (ofDirs absolute (ds ++ [c]))) {dirs : List (List Char)}
    (hdirs : Tidy absolute dirs) :
    d.resolve (d.root (text absolute (ds ++ [c]))) ((if absolute then [[]] else []) ++ dirs)
      = if d.kind (place d absolute dirs) = none then none else some (place d absolute dirs) := by
  have hroot : d.root (text absolute (ds ++ [c])) = if absolute then [] else d.cwd := by
    rw [Disk.root]
    cases absolute with
    | true => rw [if_pos ((head_text hq).mpr rfl), if_pos rfl]
    | false => rw [if_neg (by simp [head_text hq]), if_neg (by simp)]
  have hskip : d.resolve (if absolute then [] else d.cwd) ((if absolute then [[]] else []) ++ dirs)
      = d.resolve (if absolute then [] else d.cwd) dirs := by
    cases absolute with
    | true => simp [Disk.resolve, hd.root]
    | false => rfl
  rw [hroot, hskip, hd.resolve_tidy (kind_start hd absolute) hdirs, place]

theorem stat_text (hd : d.Sound) (hq : UnixForm (ofDirs absolute (ds ++ [c]))) :
    d.stat (text absolute (ds ++ [c])) = d.kind (place d absolute (ds ++ [c])) := by
  have htidy : Tidy absolute (ds ++ [c]) := hq.tidy
  rw [Disk.stat, if_neg (text_ne_nil hq), components_text hq, resolve_text hd hq htidy]
  by_cases hnone : d.kind (place d absolute (ds ++ [c])) = none
  · simp [hnone]
  · simp [hnone]

theorem mkdir_text (hd : d.Sound) (hq : UnixForm (ofDirs absolute (ds ++ [c]))) (hname : IsName c) :
    (d.mkdir (text absolute (ds ++ [c]))).1
      = if d.kind (place d absolute ds) = some .directory ∧ d.kind (place d absolute ds ++ [c]) = none
        then d.put (place d absolute ds ++ [c]) .directory else d := by
  have hlast : (components (text absolute (ds ++ [c]))).reverse.dropWhile (· = [])
      = c :: ((if absolute then [[]] else []) ++ ds).reverse := by
    rw [components_text hq, ← List.append_assoc, List.reverse_append, List.reverse_singleton,
      List.singleton_append, List.dropWhile_cons, if_neg (by simp [hname.1])]
  simp only [Disk.mkdir, hlast, List.reverse_reverse, resolve_text hd hq (tidy_dropLast hq.tidy)]
  by_cases hnone : d.kind (place d absolute ds) = none
  · simp [hnone]
  · simp only [hnone, if_false, hname.2.1, hname.2.2, false_or]
    by_cases hdir : d.kind (place d absolute ds) = some .directory
    · by_cases hnew : d.kind (place d absolute ds ++ [c]) = none <;> simp [hdir, hnew]
    · simp [hdir]

namespace Disk

/-- Some place on the way is no directory. -/
def Blocked (d : Disk) (σ : List (List Char)) : Prop := ∃ τ ∈ σ.inits, d.kind τ = some .regular

instance (d : Disk) (σ : List (List Char)) : Decidable (d.Blocked σ) :=
  inferInstanceAs (Decidable (∃ τ ∈ σ.inits, _))

/-- The disk with all directories on the way to a place, unless the way is blocked. -/
def made (d : Disk) (σ : List (List Char)) : Disk :=
  if d.Blocked σ then d else { d with kind := fun τ => if τ <+: σ then some .directory else d.kind τ }

theorem made_cwd (d : Disk) (σ : List (List Char)) : (d.made σ).cwd = d.cwd := by
  rw [made]
  split <;> rfl

theorem made_of_kind {σ : List (List Char)} (hd : d.Sound) (h : d.kind σ ≠ none) : d.made σ = d := by
  rw [made]
  split
  · rfl
  · rename_i hfree
    have hkind : (fun τ => if τ <+: σ then some .directory else d.kind τ) = d.kind := by
      funext τ
      split
      · rename_i hτ
        obtain ⟨ρ, rfl⟩ := hτ
        by_cases hρ : ρ = []
        · subst hρ
          rw [List.append_nil] at h hfree
          cases hk : d.kind τ with
          | none => exact absurd hk h
          | some k =>
            cases k with
            | directory => rfl
            | regular => exact absurd ⟨τ, by simp, hk⟩ hfree
        · exact (hd.above hρ h).symm
      · rfl
    rw [hkind]

theorem made_sound (hd : d.Sound) (σ : List (List Char)) : (d.made σ).Sound := by
  rw [made]
  split
  · exact hd
  · refine ⟨by simp, fun τ c h => ?_, ?_⟩
    · dsimp only at h ⊢
      split
      · rfl
      · rename_i hτ
        have hτc : ¬τ ++ [c] <+: σ := fun hpre => hτ ((List.prefix_append τ [c]).trans hpre)
        rw [if_neg hτc] at h
        exact hd.closed τ c h
    · dsimp only
      split
      · rfl
      · exact hd.cwd

/-- One more name on the way. -/
theorem made_concat (hd : d.Sound) {σ : List (List Char)} {c : List Char} (h : d.kind (σ ++ [c]) = none) :
    (if (d.made σ).kind σ = some .directory ∧ (d.made σ).kind (σ ++ [c]) = none
      then (d.made σ).put (σ ++ [c]) .directory else d.made σ) = d.made (σ ++ [c]) := by
  have hblocked : d.Blocked (σ ++ [c]) ↔ d.Blocked σ := by
    constructor
    · rintro ⟨τ, hτ, hk⟩
      rw [List.mem_inits, List.prefix_concat_iff] at hτ
      obtain rfl | hτ := hτ
      · simp [h] at hk
      · exact ⟨τ, (List.mem_inits ..).mpr hτ, hk⟩
    · rintro ⟨τ, hτ, hk⟩
      exact ⟨τ, (List.mem_inits ..).mpr (((List.mem_inits ..).mp hτ).trans (List.prefix_append σ [c])), hk⟩
  by_cases hb : d.Blocked σ
  · have hkind : d.kind σ ≠ some .directory := by
      obtain ⟨τ, hτ, hk⟩ := hb
      obtain ⟨ρ, rfl⟩ := (List.mem_inits ..).mp hτ
      intro hdir
      by_cases hρ : ρ = []
      · simp [hρ, hk] at hdir
      · have hup : d.kind τ = some .directory := hd.above hρ (by rw [hdir]; simp)
        rw [hup] at hk
        cases hk
    rw [made, made, if_pos hb, if_pos (hblocked.mpr hb), if_neg fun hdir => hkind hdir.1]
  · have hnew : ¬σ ++ [c] <+: σ := fun hpre => by simpa using hpre.length_le
    rw [made, made, if_neg hb, if_neg (mt hblocked.mp hb)]
    rw [if_pos (by simp [hnew, h])]
    have hkind : Function.update (fun τ => if τ <+: σ then some .directory else d.kind τ) (σ ++ [c])
        (some .directory) = fun τ => if τ <+: σ ++ [c] then some .directory else d.kind τ := by
      funext τ
      by_cases hτ : τ = σ ++ [c]
      · subst hτ
        simp
      · simp [hτ, List.prefix_concat_iff]
    rw [put, hkind]

end Disk

theorem place_concat (d : Disk) (absolute : Bool) (ds : List (List Char)) {c : List Char} (hc : IsName c) :
    place d absolute (ds ++ [c]) = place d absolute ds ++ [c] := by
  rw [place, walkDirs_append, place]
  simp [walkDirs, move_name hc, Lexical.walk, Lexical.step]

/-- A directory that is not there has a name. -/
theorem isName_of_none (hd : d.Sound) (htidy : Tidy absolute (ds ++ [c]))
    (h : d.kind (place d absolute (ds ++ [c])) = none) : IsName c := by
  obtain ⟨n, hdirs, hn, _⟩ := htidy
  obtain hnil | ⟨downs, last, hdowns⟩ := List.eq_nil_or_concat n.downs
  · have hup : place d absolute (ds ++ [c])
        = (if absolute then [] else d.cwd).take ((if absolute then [] else d.cwd).length - n.ups) := by
      rw [place, hdirs, walkDirs, filterMap_encode hn, Lexical.Normal.walk_moves, hnil, List.append_nil]
    rw [hup, hd.take (kind_start hd absolute)] at h
    cases h
  · rw [encode, hdowns, List.concat_eq_append, ← List.append_assoc] at hdirs
    obtain rfl : c = last := by simpa using (List.append_inj' hdirs rfl).2
    exact hn c (by simp [hdowns])

theorem form_dropLast (hq : UnixForm (ofDirs absolute (ds ++ [c]))) : UnixForm (ofDirs absolute ds) := by
  have hfile := form_makeFile hq
  refine ⟨⟨rfl, rfl, hfile.tidy, hfile.device_plain, hfile.dirs_plain, ?_, hfile.head_plain⟩, hfile.device_rooted,
    fun habs => ⟨(hfile.no_home habs).1, ?_⟩⟩
  · simp [Plain, ofDirs, empty]
  · simp [ofDirs, empty]

theorem makeParent_ofDirs (hc : IsName c) : (ofDirs absolute (ds ++ [c])).makeParent = ofDirs absolute ds := by
  simp [makeParent, ofDirs, empty, hc.2.2]

theorem place_made (d : Disk) (absolute : Bool) (σ dirs : List (List Char)) :
    place (d.made σ) absolute dirs = place d absolute dirs := by
  rw [place, place, d.made_cwd]

/-- The last step, with the directories above made. -/
theorem createDirectoryImpl_made (hd : d.Sound) (hq : UnixForm (ofDirs absolute (ds ++ [c])))
    (hthere : d.kind (place d absolute (ds ++ [c])) = none) (hname : IsName c) :
    createDirectoryImpl (d.made (place d absolute ds)) (text absolute (ds ++ [c]))
      = .ok (d.made (place d absolute (ds ++ [c]))) := by
  have hm := Disk.made_sound hd (place d absolute ds)
  rw [place_concat d absolute ds hname] at hthere ⊢
  have hkind : (d.made (place d absolute ds)).kind (place d absolute ds ++ [c]) = none := by
    rw [Disk.made]
    split
    · exact hthere
    · have hnew : ¬place d absolute ds ++ [c] <+: place d absolute ds := fun hpre => by simpa using hpre.length_le
      exact (if_neg hnew).trans hthere
  have hstat : (d.made (place d absolute ds)).stat (text absolute (ds ++ [c])) = none := by
    rw [stat_text hm hq, place_made, place_concat d absolute ds hname, hkind]
  have hmkdir := mkdir_text hm hq hname
  rw [place_made, Disk.made_concat hd hthere] at hmkdir
  have hexists : existsImpl (d.made (place d absolute ds)) (text absolute (ds ++ [c])) = .ok false := by
    rw [existsImpl, if_neg (text_ne_nil hq), hstat]
    rfl
  rw [createDirectoryImpl, hexists]
  exact congrArg Except.ok hmkdir

end

/-- All directories on the way are there afterwards, and nothing else changes. Nothing changes either if the way
leads through a file. -/
theorem createDirectories_made (homeDirs : List (List Char)) {d : Disk} (hd : d.Sound) {absolute : Bool}
    {dirs : List (List Char)} (hq : UnixForm (ofDirs absolute dirs)) (hne : dirs ≠ []) {n : ℕ}
    (hn : dirs.length ≤ n) :
    createDirectories homeDirs n d (text absolute dirs) = .ok (d.made (place d absolute dirs)) := by
  induction dirs using List.reverseRecOn generalizing n with
  | nil => exact absurd rfl hne
  | append_singleton ds c ih =>
    obtain ⟨n, rfl⟩ : ∃ m, n = m + 1 := ⟨n - 1, by simp at hn; omega⟩
    have hexists : existsImpl d (text absolute (ds ++ [c])) = .ok (d.kind (place d absolute (ds ++ [c]))).isSome := by
      rw [existsImpl, if_neg (text_ne_nil hq), stat_text hd hq]
    by_cases hthere : d.kind (place d absolute (ds ++ [c])) = none
    · have hname := isName_of_none hd hq.tidy hthere
      have hparent : (if ds.length + 1 > 1 then createDirectories homeDirs n d (text absolute ds) else .ok d)
          = .ok (d.made (place d absolute ds)) := by
        by_cases hnil : ds = []
        · subst hnil
          have hstart : d.kind (place d absolute []) ≠ none := by simp [place, walkDirs, Lexical.walk, kind_start hd]
          rw [d.made_of_kind hd hstart]
          rfl
        · have hpos := List.length_pos_of_ne_nil hnil
          have hlen : ds.length ≤ n := by simpa using hn
          rw [if_pos (by omega), ih (form_dropLast hq) hnil hlen]
      have hstep : createDirectories homeDirs (n + 1) d (text absolute (ds ++ [c]))
          = (if ds.length + 1 > 1 then createDirectories homeDirs n d (text absolute ds) else .ok d) >>=
            fun d => createDirectoryImpl d (text absolute (ds ++ [c])) := by
        have hlen : (ofDirs absolute (ds ++ [c])).dirs.length = ds.length + 1 := by simp [ofDirs]
        have hup : filePath (buildUnix (ofDirs absolute (ds ++ [c])).makeParent) = text absolute ds := by
          rw [makeParent_ofDirs hname, text]
        rw [← hlen, createDirectories, hexists, hthere, parse_text homeDirs hq, ← hup]
        by_cases hdeep : (ofDirs absolute (ds ++ [c])).dirs.length > 1
        · simp only [hdeep, if_true]
          rfl
        · simp only [hdeep, if_false]
          rfl
      rw [hstep, hparent]
      exact createDirectoryImpl_made hd hq hthere hname
    · have hsome : (d.kind (place d absolute (ds ++ [c]))).isSome = true := Option.isSome_iff_ne_none.mpr hthere
      rw [createDirectories, hexists, hsome, d.made_of_kind hd hthere]
      rfl

/-- A disk with one directory, where the program runs. -/
def serverDisk : Disk where
  kind σ := if σ = [] ∨ σ = [['s']] then some .directory else none
  cwd := [['s']]

theorem serverDisk_sound : serverDisk.Sound := by
  refine ⟨rfl, fun σ c h => ?_, by decide⟩
  have hσ : σ = [] := by
    by_contra hne
    have happ : σ ++ [c] = [['s']] := by simpa [serverDisk] using h
    obtain ⟨hnil, _⟩ | ⟨_, hc⟩ := List.append_eq_singleton_iff.mp happ
    · exact hne hnil
    · cases hc
  rw [hσ]
  rfl

theorem createDirectories_made_logs :
    UnixForm (ofDirs false [dotdot, ['v'], ['l']]) ∧
      createDirectories [] 3 serverDisk (text false [dotdot, ['v'], ['l']])
        = .ok (serverDisk.made (place serverDisk false [dotdot, ['v'], ['l']])) ∧
      place serverDisk false [dotdot, ['v'], ['l']] = [['v'], ['l']] := by
  have hform : UnixForm (ofDirs false [dotdot, ['v'], ['l']]) := by
    refine ⟨⟨rfl, rfl, ⟨⟨1, [['v'], ['l']]⟩, rfl, by decide, by decide⟩, ?_, ?_, ?_, ?_⟩, ?_, ?_⟩
    all_goals simp [Plain, ofDirs, empty, unixSep, dotdot]
  exact ⟨hform, createDirectories_made [] serverDisk_sound hform (by decide) (by decide), by decide⟩

end RgcFifa.File
