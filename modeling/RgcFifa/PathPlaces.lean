import RgcFifa.Lib.Lexical
import RgcFifa.Path

/-! What the directory list of a path stands for: the place where a walk along it ends. The list is
kept in its normal form, and the operations move the place as their names say. -/

namespace RgcFifa.Path

open Lexical

/-- What a component does: nothing, a move up, or a move down. -/
def move (d : List Char) : Option (Move (List Char)) :=
  if d = [] ∨ d = dot then none else if d = dotdot then some .up else some (.down d)

/-- The names that are moves down. -/
def IsName (d : List Char) : Prop := d ≠ [] ∧ d ≠ dot ∧ d ≠ dotdot

instance (d : List Char) : Decidable (IsName d) := inferInstanceAs (Decidable (_ ∧ _ ∧ _))

theorem move_name {d : List Char} (hd : IsName d) : move d = some (.down d) := by
  rw [move, if_neg (by simp [hd.1, hd.2.1]), if_neg hd.2.2]

theorem move_dotdot : move dotdot = some .up := by decide

theorem move_cases (d : List Char) :
    (d = [] ∨ d = dot) ∧ move d = none ∨ d = dotdot ∧ move d = some .up ∨ IsName d ∧ move d = some (.down d) := by
  by_cases hnone : d = [] ∨ d = dot
  · exact Or.inl ⟨hnone, by rw [move, if_pos hnone]⟩
  · by_cases hup : d = dotdot
    · subst hup
      exact Or.inr (Or.inl ⟨rfl, move_dotdot⟩)
    · have hname : IsName d := ⟨fun h => hnone (Or.inl h), fun h => hnone (Or.inr h), hup⟩
      exact Or.inr (Or.inr ⟨hname, move_name hname⟩)

/-- The directory list of a normal form. -/
def encode (n : Normal (List Char)) : List (List Char) := List.replicate n.ups dotdot ++ n.downs

/-- The lists that the code keeps: some `..` and then names, and only names after a root. -/
def Tidy (absolute : Bool) (dirs : List (List Char)) : Prop :=
  ∃ n : Normal (List Char), dirs = encode n ∧ (∀ d ∈ n.downs, IsName d) ∧ (absolute = true → n.ups = 0)

/-- Where a walk along the list ends. -/
def walkDirs (σ : List (List Char)) (dirs : List (List Char)) : List (List Char) :=
  walk σ (dirs.filterMap move)

theorem filterMap_encode {n : Normal (List Char)} (hn : ∀ d ∈ n.downs, IsName d) :
    (encode n).filterMap move = n.moves := by
  have hups : (List.replicate n.ups dotdot).filterMap move = List.replicate n.ups .up := by
    simp [move_dotdot]
  have hdowns : ∀ ds : List (List Char), (∀ d ∈ ds, IsName d) → ds.filterMap move = ds.map .down := by
    intro ds hds
    induction ds with
    | nil => rfl
    | cons d ds ih =>
      rw [List.filterMap_cons, move_name (hds d (by simp)), ih fun e he => hds e (by simp [he])]
      rfl
  rw [encode, List.filterMap_append, hups, hdowns n.downs hn, Normal.moves]

theorem getLast?_encode (n : Normal (List Char)) :
    (encode n).getLast? = if n.downs = [] then (if n.ups = 0 then none else some dotdot) else n.downs.getLast? := by
  rw [encode]
  cases hd : n.downs with
  | nil =>
    cases hu : n.ups with
    | zero => rfl
    | succ k => simp [List.getLast?_replicate]
  | cons d ds => simp [List.getLast?_append, List.getLast?_cons]

theorem encode_push {n : Normal (List Char)} (hn : ∀ d ∈ n.downs, IsName d) {d : List Char}
    {m : Move (List Char)} (hm : move d = some m) : pushDir false (encode n) d = encode (n.push m) := by
  rcases move_cases d with ⟨_, hmove⟩ | ⟨rfl, hmove⟩ | ⟨hname, hmove⟩
  · rw [hmove] at hm
    cases hm
  · obtain rfl := Option.some.inj (hmove.symm.trans hm)
    rw [pushDir, if_neg (by decide), if_pos rfl, getLast?_encode]
    by_cases hd : n.downs = []
    · rw [if_pos hd, Normal.push, if_pos hd]
      by_cases hu : n.ups = 0
      · simp [encode, hu, hd]
      · simp [encode, hu, hd, List.replicate_succ']
    · obtain ⟨ds, last, hds⟩ := (List.eq_nil_or_concat n.downs).resolve_left hd
      have hlast : last ≠ dotdot := (hn last (by simp [hds])).2.2
      rw [if_neg hd, Normal.push, if_neg hd]
      simp [encode, hds, hlast]
  · obtain rfl := Option.some.inj (hmove.symm.trans hm)
    rw [pushDir, if_neg (by simp [hname.1, hname.2.1]), if_neg hname.2.2]
    simp [encode, Normal.push]

theorem encode_pushRooted {n : Normal (List Char)} (hn : ∀ d ∈ n.downs, IsName d) (hroot : n.ups = 0)
    {d : List Char} {m : Move (List Char)} (hm : move d = some m) :
    pushDir true (encode n) d = encode (n.pushRooted m) := by
  rcases move_cases d with ⟨_, hmove⟩ | ⟨rfl, hmove⟩ | ⟨hname, hmove⟩
  · rw [hmove] at hm
    cases hm
  · obtain rfl := Option.some.inj (hmove.symm.trans hm)
    rw [pushDir, if_neg (by decide), if_pos rfl, getLast?_encode]
    by_cases hd : n.downs = []
    · simp [encode, hroot, hd, Normal.pushRooted]
    · obtain ⟨ds, last, hds⟩ := (List.eq_nil_or_concat n.downs).resolve_left hd
      have hlast : last ≠ dotdot := (hn last (by simp [hds])).2.2
      simp [encode, hds, hlast, hroot, Normal.pushRooted]
  · obtain rfl := Option.some.inj (hmove.symm.trans hm)
    rw [pushDir, if_neg (by simp [hname.1, hname.2.1]), if_neg hname.2.2]
    simp [encode, Normal.pushRooted]

theorem pushDir_none {d : List Char} (hm : move d = none) (absolute : Bool) (dirs : List (List Char)) :
    pushDir absolute dirs d = dirs := by
  rcases move_cases d with ⟨hd, _⟩ | ⟨_, hmove⟩ | ⟨_, hmove⟩
  · rw [pushDir, if_pos hd]
  · rw [hmove] at hm
    cases hm
  · rw [hmove] at hm
    cases hm

/-- One more component keeps the list tidy and moves the place. -/
theorem tidy_pushDir {absolute : Bool} {dirs : List (List Char)} (h : Tidy absolute dirs) (d : List Char) :
    Tidy absolute (pushDir absolute dirs d)
      ∧ ∀ σ, (absolute = true → σ = []) → walkDirs σ (pushDir absolute dirs d) = walkDirs σ (dirs ++ [d]) := by
  obtain ⟨n, rfl, hn, hroot⟩ := h
  cases hm : move d with
  | none =>
    rw [pushDir_none hm]
    exact ⟨⟨n, rfl, hn, hroot⟩, fun σ _ => by simp [walkDirs, List.filterMap_append, hm]⟩
  | some m =>
    have hname : ∀ a, m = .down a → IsName a := by
      rintro a rfl
      rcases move_cases d with ⟨_, hmove⟩ | ⟨_, hmove⟩ | ⟨hname, hmove⟩
      · simp [hmove] at hm
      · simp [hmove] at hm
      · obtain rfl := Move.down.inj (Option.some.inj (hmove.symm.trans hm))
        exact hname
    have hmoves (σ : List (List Char)) :
        walkDirs σ (encode n ++ [d]) = step (walk σ n.moves) m := by
      simp [walkDirs, List.filterMap_append, filterMap_encode hn, hm, walk]
    cases absolute with
    | false =>
      have hpush : ∀ a ∈ (n.push m).downs, IsName a := by
        intro a ha
        cases m with
        | up =>
          rw [Normal.push] at ha
          by_cases hd : n.downs = []
          · simp [hd] at ha
          · exact hn a (List.mem_of_mem_dropLast (by simpa [hd] using ha))
        | down b =>
          rcases List.mem_append.mp ha with ha | ha
          · exact hn a ha
          · obtain rfl : a = b := by simpa using ha
            exact hname a rfl
      rw [encode_push hn hm]
      refine ⟨⟨n.push m, rfl, hpush, by simp⟩, fun σ _ => ?_⟩
      rw [hmoves, walkDirs, filterMap_encode hpush, Normal.walk_push]
    | true =>
      have hpush : ∀ a ∈ (n.pushRooted m).downs, IsName a := by
        intro a ha
        cases m with
        | up => exact hn a (List.mem_of_mem_dropLast ha)
        | down b =>
          rcases List.mem_append.mp ha with ha | ha
          · exact hn a ha
          · obtain rfl : a = b := by simpa using ha
            exact hname a rfl
      rw [encode_pushRooted hn (hroot rfl) hm]
      refine ⟨⟨n.pushRooted m, rfl, hpush, fun _ => ?_⟩, fun σ hσ => ?_⟩
      · cases m <;> exact hroot rfl
      · rw [hmoves, hσ rfl, walkDirs, filterMap_encode hpush, Normal.walk_pushRooted]

/-! ### Operations -/

def IsTidy (p : Path) : Prop := Tidy p.absolute p.dirs

/-- A directory, by the names from the root, and a name in it. -/
@[ext] structure Spot where
  place : List (List Char)
  name : List Char

/-- What a path means, seen from a directory. -/
def meaning (p : Path) (σ : List (List Char)) : Spot :=
  ⟨walkDirs (if p.absolute then [] else σ) p.dirs, p.name⟩

theorem walkDirs_append (σ ds es : List (List Char)) : walkDirs σ (ds ++ es) = walkDirs (walkDirs σ ds) es := by
  simp [walkDirs, List.filterMap_append]

theorem pushDirectory_meaning {p : Path} (hp : p.IsTidy) (d : List Char) :
    (p.pushDirectory d).IsTidy
      ∧ ∀ σ, (p.pushDirectory d).meaning σ = ⟨walkDirs (p.meaning σ).place [d], p.name⟩ := by
  obtain ⟨htidy, hwalk⟩ := tidy_pushDir hp d
  refine ⟨htidy, fun σ => ?_⟩
  have hplace := hwalk (if p.absolute then [] else σ) (by simp +contextual)
  rw [walkDirs_append] at hplace
  exact Spot.ext hplace rfl

theorem foldl_pushDirectory {p : Path} (hp : p.IsTidy) (ds : List (List Char)) :
    (ds.foldl pushDirectory p).IsTidy ∧ (ds.foldl pushDirectory p).absolute = p.absolute
      ∧ ∀ σ, (ds.foldl pushDirectory p).meaning σ = ⟨walkDirs (p.meaning σ).place ds, p.name⟩ := by
  induction ds generalizing p with
  | nil => exact ⟨hp, rfl, fun σ => rfl⟩
  | cons d ds ih =>
    obtain ⟨htidy, hmeaning⟩ := pushDirectory_meaning hp d
    obtain ⟨h1, h2, h3⟩ := ih htidy
    refine ⟨h1, h2, fun σ => ?_⟩
    rw [List.foldl_cons, h3, hmeaning, ← walkDirs_append, List.singleton_append]
    rfl

theorem makeDirectory_meaning {p : Path} (hp : p.IsTidy) :
    p.makeDirectory.IsTidy
      ∧ ∀ σ, p.makeDirectory.meaning σ = ⟨walkDirs (p.meaning σ).place [p.name], []⟩ := by
  obtain ⟨htidy, hmeaning⟩ := pushDirectory_meaning hp p.name
  refine ⟨htidy, fun σ => Spot.ext ?_ rfl⟩
  have hplace : (p.pushDirectory p.name |>.meaning σ).place = walkDirs (p.meaning σ).place [p.name] := by
    rw [hmeaning]
  exact hplace

/-- The parent of a directory is one `..` further. -/
theorem makeParent_eq {p : Path} (hp : p.IsTidy) (hname : p.name = []) :
    p.makeParent = p.pushDirectory dotdot := by
  have hnot : ¬(dotdot = [] ∨ dotdot = dot) := by decide
  rw [makeParent, if_pos hname, pushDirectory, pushDir, if_neg hnot, if_pos rfl]
  cases hlast : p.dirs.getLast? with
  | none =>
    have hnil := List.getLast?_eq_none_iff.mp hlast
    by_cases habs : p.absolute = true
    · simp only [if_pos habs]
    · simp only [if_neg habs, hnil, List.nil_append]
  | some last =>
    by_cases hdd : last = dotdot
    · have habs : p.absolute = false := by
        by_contra habs
        obtain ⟨n, hdirs, hn, hroot⟩ := hp
        have hups := hroot (by simpa using habs)
        have hmem := List.mem_of_getLast? hlast
        rw [hdirs, encode, hups] at hmem
        exact (hn last (by simpa using hmem)).2.2 hdd
      simp [hdd, habs]
    · simp [hdd]

theorem walkDirs_dotdot (σ : List (List Char)) : walkDirs σ [dotdot] = σ.dropLast := by
  simp [walkDirs, move_dotdot, walk, step]

theorem makeParent_meaning {p : Path} (hp : p.IsTidy) :
    p.makeParent.IsTidy ∧ ∀ σ, p.makeParent.meaning σ
      = if p.name = [] then ⟨(p.meaning σ).place.dropLast, []⟩ else ⟨(p.meaning σ).place, []⟩ := by
  by_cases hname : p.name = []
  · obtain ⟨htidy, hmeaning⟩ := pushDirectory_meaning hp dotdot
    rw [makeParent_eq hp hname]
    refine ⟨htidy, fun σ => ?_⟩
    rw [hmeaning, walkDirs_dotdot, if_pos hname, hname]
  · rw [makeParent, if_neg hname]
    exact ⟨hp, fun σ => by rw [if_neg hname]; rfl⟩

theorem resolve_meaning {p q : Path} (hp : p.IsTidy) (hq : q.IsTidy) :
    (p.resolve q).IsTidy ∧ (p.resolve q).absolute = (q.absolute || p.absolute)
      ∧ ∀ σ, (p.resolve q).meaning σ = q.meaning (p.meaning σ).place := by
  cases habs : q.absolute with
  | true =>
    rw [resolve, if_pos habs]
    exact ⟨hq, by simp [habs], fun σ => by simp [meaning, habs]⟩
  | false =>
    obtain ⟨htidy, hsame, hmeaning⟩ := foldl_pushDirectory hp q.dirs
    rw [resolve, if_neg (by simp [habs])]
    refine ⟨htidy, by simp [hsame], fun σ => Spot.ext ?_ rfl⟩
    have hplace := congrArg Spot.place (hmeaning σ)
    simpa [meaning, habs] using hplace

theorem makeAbsolute_meaning {p base : Path} (hp : p.IsTidy) (hbase : base.IsTidy) :
    (p.makeAbsolute base).IsTidy ∧ ∀ σ, (p.makeAbsolute base).meaning σ
      = p.meaning (base.makeDirectory.meaning σ).place := by
  cases habs : p.absolute with
  | true =>
    rw [makeAbsolute, if_pos habs]
    exact ⟨hp, fun σ => by simp [meaning, habs]⟩
  | false =>
    obtain ⟨hdir, _⟩ := makeDirectory_meaning hbase
    obtain ⟨htidy, hsame, hmeaning⟩ := foldl_pushDirectory hdir p.dirs
    rw [makeAbsolute, if_neg (by simp [habs])]
    have habs' : (p.dirs.foldl pushDirectory base.makeDirectory).absolute = base.absolute := hsame
    refine ⟨?_, fun σ => Spot.ext ?_ rfl⟩
    · rw [IsTidy, habs'] at htidy
      exact htidy
    · have hplace := congrArg Spot.place (hmeaning σ)
      simp only [meaning, habs'] at hplace
      simpa [meaning, habs] using hplace

/-- The operations that keep the list tidy. -/
inductive Op where
  | pushDirectory (dir : List Char)
  | makeDirectory
  | makeParent
  | setFileName (name : List Char)
  | resolve (path : Path)
  | makeAbsolute (base : Path)
  | assign (path : Path)

namespace Op

def exec (p : Path) : Op → Path
  | .pushDirectory dir => p.pushDirectory dir
  | .makeDirectory => p.makeDirectory
  | .makeParent => p.makeParent
  | .setFileName name => p.setFileName name
  | .resolve path => p.resolve path
  | .makeAbsolute base => p.makeAbsolute base
  | .assign path => path

/-- The path that an operation takes is tidy too. -/
def Tidied : Op → Prop
  | .resolve path => path.IsTidy
  | .makeAbsolute base => base.IsTidy
  | .assign path => path.IsTidy
  | _ => True

/-- What an operation makes of the meaning of a path. -/
def act (m : List (List Char) → Spot) : Op → List (List Char) → Spot
  | .pushDirectory dir => fun σ => ⟨walkDirs (m σ).place [dir], (m σ).name⟩
  | .makeDirectory => fun σ => ⟨walkDirs (m σ).place [(m σ).name], []⟩
  | .makeParent => fun σ => if (m σ).name = [] then ⟨(m σ).place.dropLast, []⟩ else ⟨(m σ).place, []⟩
  | .setFileName name => fun σ => ⟨(m σ).place, name⟩
  | .resolve path => fun σ => path.meaning (m σ).place
  | .makeAbsolute base => fun σ => m (base.makeDirectory.meaning σ).place
  | .assign path => path.meaning

theorem exec_meaning {p : Path} (hp : p.IsTidy) {op : Op} (hop : op.Tidied) :
    (op.exec p).IsTidy ∧ (op.exec p).meaning = op.act p.meaning := by
  cases op with
  | pushDirectory dir =>
    obtain ⟨htidy, hmeaning⟩ := pushDirectory_meaning hp dir
    exact ⟨htidy, funext hmeaning⟩
  | makeDirectory =>
    obtain ⟨htidy, hmeaning⟩ := makeDirectory_meaning hp
    exact ⟨htidy, funext hmeaning⟩
  | makeParent =>
    obtain ⟨htidy, hmeaning⟩ := makeParent_meaning hp
    exact ⟨htidy, funext hmeaning⟩
  | setFileName name => exact ⟨hp, rfl⟩
  | resolve path =>
    obtain ⟨htidy, _, hmeaning⟩ := resolve_meaning hp hop
    exact ⟨htidy, funext hmeaning⟩
  | makeAbsolute base =>
    obtain ⟨htidy, hmeaning⟩ := makeAbsolute_meaning hp hop
    exact ⟨htidy, funext hmeaning⟩
  | assign path => exact ⟨hop, rfl⟩

end Op

/-- In any run of operations the list stays tidy, and the path means what the operations make of it. -/
theorem run_meaning {p : Path} (hp : p.IsTidy) {ops : List Op} (hops : ∀ op ∈ ops, op.Tidied) :
    (ops.foldl Op.exec p).IsTidy ∧ (ops.foldl Op.exec p).meaning = ops.foldl Op.act p.meaning := by
  induction ops generalizing p with
  | nil => exact ⟨hp, rfl⟩
  | cons op ops ih =>
    obtain ⟨htidy, hmeaning⟩ := Op.exec_meaning hp (hops op (by simp))
    rw [List.foldl_cons, List.foldl_cons, ← hmeaning]
    exact ih htidy fun op' hop' => hops op' (by simp [hop'])

/-- `a/..`, with a parent: the path means the parent of where it is seen from. -/
theorem run_meaning_up :
    ([Op.pushDirectory ['a'], .pushDirectory dotdot, .makeParent].foldl Op.exec (empty false)).IsTidy
      ∧ ([Op.pushDirectory ['a'], .pushDirectory dotdot, .makeParent].foldl Op.exec (empty false)).meaning
        = [Op.pushDirectory ['a'], .pushDirectory dotdot, .makeParent].foldl Op.act (empty false).meaning :=
  run_meaning ⟨⟨0, []⟩, rfl, by simp, fun _ => rfl⟩ (by simp [Op.Tidied])

/-! ### Resolving one after the other -/

/-- Tidy lists with the same meaning are the same. -/
theorem tidy_eq {absolute : Bool} {ds es : List (List Char)} (hd : Tidy absolute ds) (he : Tidy absolute es)
    (h : ∀ σ, walkDirs (if absolute then [] else σ) ds = walkDirs (if absolute then [] else σ) es) :
    ds = es := by
  obtain ⟨n, rfl, hn, hnroot⟩ := hd
  obtain ⟨m, rfl, hm, hmroot⟩ := he
  simp only [walkDirs, filterMap_encode hn, filterMap_encode hm] at h
  cases absolute with
  | false => rw [Normal.eq_of_walk fun σ => h σ]
  | true =>
    have hroot := h []
    simp only [if_true, Normal.walk_moves, List.take_nil, List.nil_append] at hroot
    rw [encode, encode, hnroot rfl, hmroot rfl, hroot]

/-- The parts that a relative path does not touch. -/
theorem resolve_relative {p q : Path} (hq : q.absolute = false) :
    (p.resolve q).node = p.node ∧ (p.resolve q).device = p.device ∧ (p.resolve q).version = p.version
      ∧ (p.resolve q).name = q.name := by
  have hfold : ∀ (ds : List (List Char)) (p : Path), (ds.foldl pushDirectory p).node = p.node
      ∧ (ds.foldl pushDirectory p).device = p.device ∧ (ds.foldl pushDirectory p).version = p.version := by
    intro ds
    induction ds with
    | nil => exact fun p => ⟨rfl, rfl, rfl⟩
    | cons d ds ih => exact fun p => ih (p.pushDirectory d)
  rw [resolve, if_neg (by simp [hq])]
  obtain ⟨h1, h2, h3⟩ := hfold q.dirs p
  exact ⟨h1, h2, h3, rfl⟩

/-- It does not matter which of two resolutions is made first. -/
theorem resolve_assoc {p q r : Path} (hp : p.IsTidy) (hq : q.IsTidy) (hr : r.IsTidy) :
    (p.resolve q).resolve r = p.resolve (q.resolve r) := by
  obtain ⟨hpq, hpqabs, hpqmeaning⟩ := resolve_meaning hp hq
  obtain ⟨hqr, hqrabs, hqrmeaning⟩ := resolve_meaning hq hr
  cases hrabs : r.absolute with
  | true =>
    have hinner : q.resolve r = r := if_pos hrabs
    have hleft : (p.resolve q).resolve r = r := if_pos hrabs
    have hright : p.resolve r = r := if_pos hrabs
    rw [hinner, hleft, hright]
  | false =>
    cases hqabs : q.absolute with
    | true =>
      have hinner : p.resolve q = q := if_pos hqabs
      have houter : p.resolve (q.resolve r) = q.resolve r := if_pos (by rw [hqrabs, hqabs, hrabs]; rfl)
      rw [hinner, houter]
    | false =>
      have hqr' : (q.resolve r).absolute = false := by rw [hqrabs, hrabs, hqabs]; rfl
      obtain ⟨hleft, hleftabs, hleftmeaning⟩ := resolve_meaning hpq hr
      obtain ⟨hright, hrightabs, hrightmeaning⟩ := resolve_meaning hp hqr
      have habs : ((p.resolve q).resolve r).absolute = (p.resolve (q.resolve r)).absolute := by
        rw [hleftabs, hrightabs, hpqabs, hqrabs, Bool.or_assoc]
      have hdirs : ((p.resolve q).resolve r).dirs = (p.resolve (q.resolve r)).dirs := by
        have hleft' : Tidy (p.resolve (q.resolve r)).absolute ((p.resolve q).resolve r).dirs := by
          rw [← habs]
          exact hleft
        refine tidy_eq hleft' hright fun σ => ?_
        have hsame := (hleftmeaning σ).trans ((congrArg r.meaning
          (congrArg Spot.place (hpqmeaning σ))).trans ((hqrmeaning _).symm.trans (hrightmeaning σ).symm))
        have hplace := congrArg Spot.place hsame
        simpa only [meaning, habs] using hplace
      obtain ⟨hn₁, hd₁, hv₁, _⟩ := resolve_relative (p := p) hqabs
      obtain ⟨hn₂, hd₂, hv₂, hm₂⟩ := resolve_relative (p := p.resolve q) hrabs
      obtain ⟨_, _, _, hm₃⟩ := resolve_relative (p := q) hrabs
      obtain ⟨hn₄, hd₄, hv₄, hm₄⟩ := resolve_relative (p := p) hqr'
      refine Path.ext ?_ ?_ ?_ ?_ hdirs habs
      · rw [hn₂, hn₁, hn₄]
      · rw [hd₂, hd₁, hd₄]
      · rw [hm₂, hm₄, hm₃]
      · rw [hv₂, hv₁, hv₄]

/-- `a` resolved with `../b` and that with `../../c`. -/
theorem resolve_assoc_up :
    (({ empty false with dirs := [['a']] } : Path).resolve { empty false with dirs := [dotdot, ['b']] }).resolve
        { empty false with dirs := [dotdot, dotdot, ['c']] }
      = ({ empty false with dirs := [['a']] } : Path).resolve
        (({ empty false with dirs := [dotdot, ['b']] } : Path).resolve
          { empty false with dirs := [dotdot, dotdot, ['c']] }) :=
  resolve_assoc ⟨⟨0, [['a']]⟩, rfl, by decide, by decide⟩ ⟨⟨1, [['b']]⟩, rfl, by decide, by decide⟩
    ⟨⟨2, [['c']]⟩, rfl, by decide, by decide⟩

end RgcFifa.Path
