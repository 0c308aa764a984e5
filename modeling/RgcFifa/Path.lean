import Mathlib.Tactic

/-! File system paths: the operations on the components, and the Unix and the Windows syntax. -/

namespace RgcFifa

@[ext] structure Path where
  node : List Char
  device : List Char
  name : List Char
  version : List Char
  dirs : List (List Char)
  absolute : Bool
  deriving DecidableEq, Repr

namespace Path

def dot : List Char := ['.']

def dotdot : List Char := ['.', '.']

def empty (absolute : Bool) : Path := ⟨[], [], [], [], [], absolute⟩

/-! ### The directory list -/

/-- The directory list after one more component; `..` takes the last one away, unless that is `..`
itself. -/
def pushDir (absolute : Bool) (dirs : List (List Char)) (dir : List Char) : List (List Char) :=
  if dir = [] ∨ dir = dot then dirs
  else if dir = dotdot then
    match dirs.getLast? with
    | some last =>
      if last ≠ dotdot then dirs.dropLast else if absolute then dirs else dirs ++ [dir]
    | none => if absolute then dirs else dirs ++ [dir]
  else dirs ++ [dir]

def pushDirectory (p : Path) (dir : List Char) : Path := { p with dirs := pushDir p.absolute p.dirs dir }

def makeDirectory (p : Path) : Path := { p.pushDirectory p.name with name := [], version := [] }

def makeParent (p : Path) : Path :=
  if p.name = [] then
    match p.dirs.getLast? with
    | none => if p.absolute then p else { p with dirs := [dotdot] }
    | some last => { p with dirs := if last = dotdot then p.dirs ++ [dotdot] else p.dirs.dropLast }
  else { p with name := [], version := [] }

/-- `makeAbsolute(const Path& base)`, also what `absolute(base)` returns. -/
def makeAbsolute (p base : Path) : Path :=
  if p.absolute then p
  else
    let tmp := p.dirs.foldl pushDirectory base.makeDirectory
    { p with node := tmp.node, device := tmp.device, dirs := tmp.dirs, absolute := base.absolute }

def resolve (p path : Path) : Path :=
  if path.absolute then path
  else { path.dirs.foldl pushDirectory p with name := path.name }

def setFileName (p : Path) (name : List Char) : Path := { p with name := name }

/-! ### The loop of a parser

Both parsers take the components one by one. One that a separator ends is a directory, the last one is
the name. -/

def parseLoop (isSep : Char → Bool) (component : Path → List Char → Path) (p : Path) (s : List Char) : Path :=
  if s = [] then p
  else
    match hrest : s.dropWhile (!isSep ·) with
    | [] => { p with name := s.takeWhile (!isSep ·) }
    | _ :: rest => parseLoop isSep component (component p (s.takeWhile (!isSep ·))) rest
termination_by s.length
decreasing_by
  have hle := (List.dropWhile_suffix (p := (!isSep ·)) (l := s)).length_le
  rw [hrest, List.length_cons] at hle
  exact hle

/-! ### The Unix syntax -/

def unixSep (c : Char) : Bool := c = '/'

/-- Before any directory a component that ends in a colon is the device. -/
def unixComponent (p : Path) (name : List Char) : Path :=
  if p.dirs = [] ∧ name.getLast? = some ':' then { p with device := name.dropLast } else p.pushDirectory name

def parseUnixLoop : Path → List Char → Path := parseLoop unixSep unixComponent

/-- `homeDirs` are the directories of `Path(home())`. -/
def parseUnix (homeDirs : List (List Char)) (path : List Char) : Path :=
  match path with
  | [] => empty false
  | '/' :: rest => parseUnixLoop (empty true) rest
  | ['~'] => { empty true with dirs := homeDirs }
  | '~' :: '/' :: rest => parseUnixLoop { empty true with dirs := homeDirs } ('/' :: rest)
  | path => parseUnixLoop (empty false) path

/-- Each directory and a separator after it. -/
def joined (separator : Char) (dirs : List (List Char)) : List Char := dirs.flatMap fun d => d ++ [separator]

def buildUnix (p : Path) : List Char :=
  (if p.device ≠ [] then ['/'] ++ p.device ++ [':', '/'] else if p.absolute then ['/'] else [])
    ++ joined '/' p.dirs ++ p.name

/-! ### The Windows syntax -/

def windowsSep (c : Char) : Bool := c = '\\' || c = '/'

def parseWindowsLoop : Path → List Char → Path := parseLoop windowsSep pushDirectory

def IsLetter (c : Char) : Prop := ('a' ≤ c ∧ c ≤ 'z') ∨ ('A' ≤ c ∧ c ≤ 'Z')

instance (c : Char) : Decidable (IsLetter c) := inferInstanceAs (Decidable (_ ∨ _))

/-- What stands in front: a node after two separators, or a drive letter, which must not follow a
separator and must be followed by one; none is the exception of a syntax error. -/
def parseWindowsHead (path : List Char) : Option (Path × List Char) :=
  let (absolute, s) := match path with
    | c :: rest => if windowsSep c then (true, rest) else (false, path)
    | [] => (false, path)
  match absolute, s with
  | true, c :: rest =>
    if windowsSep c then
      some ({ empty true with node := rest.takeWhile (!windowsSep ·) }, (rest.dropWhile (!windowsSep ·)).tail)
    else if rest.head? = some ':' then none
    else some (empty true, s)
  | false, d :: ':' :: rest =>
    if IsLetter d then
      match rest with
      | c :: rest => if windowsSep c then some ({ empty true with device := [d] }, rest) else none
      | [] => none
    else none
  | _, _ => some (empty absolute, s)

/-- After a node a lone name is a directory, the share. -/
def Shared (p : Path) : Prop := p.node ≠ [] ∧ p.dirs = [] ∧ p.name ≠ []

instance (p : Path) : Decidable p.Shared := inferInstanceAs (Decidable (_ ∧ _ ∧ _))

def parseWindows (path : List Char) : Option Path := do
  let (p, s) ← parseWindowsHead path
  let p := parseWindowsLoop p s
  some (if p.Shared then p.makeDirectory else p)

def buildWindows (p : Path) : List Char :=
  (if p.node ≠ [] then ['\\', '\\'] ++ p.node ++ ['\\']
    else if p.device ≠ [] then p.device ++ [':', '\\']
    else if p.absolute then ['\\'] else [])
    ++ joined '\\' p.dirs ++ p.name

end Path

end RgcFifa
