import RgcFifa.Lib.Slots
import RgcFifa.Lib.Transition
import RgcFifa.ConduitRead
import RgcFifa.ServerCommon

/-! One `TcpSlaveServer`: its slot table of conduits, its operation queue and the
state of its outgoing connections. Descriptors bound the number of conduits far
below `2 ^ 30`, so slot numbers, counters and session ids are unbounded here. -/

namespace RgcFifa

def WORKERS : ℕ := 2

instance : NeZero WORKERS := ⟨Nat.succ_ne_zero 1⟩

/-- A conduit object. `serial` is the identity of the object. -/
structure TcpConduit where
  kind : ConduitKind
  socket : Int
  uid : Int
  serial : ℕ
  deriving DecidableEq, Repr

/-- An entry of `_opList`: type 1 carries a socket or a negated server key, type 2
carries a session id. The conduit that queued a removal is noted beside it. -/
inductive OpStruct where
  | accept (data : Int)
  | remove (data : Int) (issuer : ℕ)
  deriving DecidableEq, Repr

/-- `built` counts the conduits put into the table so far and `wire` records every
`TcpConduit::send`, by serial. The source has no such fields. -/
structure TcpSlaveServer where
  slaveIdx : ℕ
  serverCfg : ServerCommonConfig
  conduits : List (Option TcpConduit)
  emptySet : Finset ℕ
  connUp : Std.ExtTreeMap Int Int
  count : ℕ
  opList : List OpStruct
  built : ℕ
  wire : List (ℕ × List UInt8)

/-- What the world answers while a conduit is made: the descriptor `socket()`
returns, and which of the calls fail. -/
structure Attempt where
  sock : Int
  allocFails : Bool
  ctorThrows : Bool
  connectThrows : Bool
  deriving DecidableEq, Repr

inductive Made where
  | null
  | throws
  | made (c : TcpConduit)

/-- `new(std::nothrow) T(..)`, where the constructor may throw. -/
def make (a : Attempt) (c : TcpConduit) : Made :=
  if a.allocFails then .null else if a.ctorThrows then .throws else .made c

/-- The first bytes on an outgoing connection, sent by `ClientConn::initConnection`. -/
def registerFrame (ss : Int) (cfg : ServerCommonConfig) : List UInt8 :=
  let key := UInt16.ofInt ss
  let target := (key.toNat <<< 8) + (key &&& 0xFF).toNat
  let source := (cfg.serverType.toNat <<< 8) + cfg.serverUID.toNat
  ((Stream.ofHeader 1 (UInt16.ofNat target) (UInt16.ofNat source)).putChars
    "register_protocol!".toUTF8.toList).eos.buf

namespace TcpSlaveServer

def start (idx : ℕ) (cfg : ServerCommonConfig) : TcpSlaveServer where
  slaveIdx := idx
  serverCfg := (ServerCommonConfig.ofType 0 0 0).assign cfg
  conduits := []
  emptySet := ∅
  connUp := ∅
  count := 0
  opList := []
  built := 0
  wire := []

abbrev slot (s : TcpSlaveServer) (i : ℕ) : Option TcpConduit := Slots.slot s.conduits i

def accepted (ss : Int) (s : TcpSlaveServer) : TcpSlaveServer :=
  { s with opList := s.opList ++ [.accept ss] }

def remove (id : Int) (issuer : ℕ) (s : TcpSlaveServer) : TcpSlaveServer :=
  { s with opList := s.opList ++ [.remove id issuer] }

def isUp (stype : Int) (s : TcpSlaveServer) : Prop := ∃ v, s.connUp[stype]? = some v ∧ 0 ≤ v

instance (stype : Int) (s : TcpSlaveServer) : Decidable (s.isUp stype) :=
  match h : s.connUp[stype]? with
  | none => .isFalse (by rintro ⟨v, hv, _⟩; simp [h] at hv)
  | some v => decidable_of_iff (0 ≤ v) (by simp [isUp, h])

def initConnection (stype : Int) (s : TcpSlaveServer) : TcpSlaveServer :=
  if s.isUp stype then s
  else { s with connUp := s.connUp.insert stype 0, opList := s.opList ++ [.accept (-stype)] }

def lostConnection (stype : Int) (s : TcpSlaveServer) : TcpSlaveServer :=
  { s with connUp := s.connUp.insert stype (-1) }

def send (c : TcpConduit) (buf : List UInt8) (s : TcpSlaveServer) : TcpSlaveServer :=
  { s with wire := s.wire ++ [(c.serial, buf)] }

def newConduit (a : Attempt) (ss uid : Int) (s : TcpSlaveServer) : Made :=
  make a ⟨.gameClient, ss, uid, s.built⟩

def newConnection (a : Attempt) (ss uid : Int) (s : TcpSlaveServer) : Made :=
  if ss < 0 then
    if s.serverCfg.getPortFromConnectMap (UInt16.ofInt (-ss)) ≤ 0 then .null
    else if a.sock < 0 then .null
    else make a ⟨.clientConn (-ss), a.sock, uid, s.built⟩
  else .null

/-- The `try` block of `_accepted`: a usable conduit, or none after a null pointer
or an exception. A connection that fails to start is deleted again. -/
def construct (a : Attempt) (ss uid : Int) (s : TcpSlaveServer) : Option TcpConduit :=
  if ss < 0 then
    match s.newConnection a ss uid with
    | .made c => if a.connectThrows then none else some c
    | _ => none
  else
    match s.newConduit a ss uid with
    | .made c => some c
    | _ => none

/-- What a started conduit leaves in its output: a connection registers itself. -/
def started (ss : Int) (c : TcpConduit) (s : TcpSlaveServer) : TcpSlaveServer :=
  if ss < 0 then s.send c (registerFrame (-ss) s.serverCfg) else s

/-- The failure exits of `_accepted`. -/
def acceptFailed (ss : Int) (s : TcpSlaveServer) : TcpSlaveServer :=
  if ss < 0 then { s with connUp := s.connUp.insert (-ss) (-1) } else s

/-- The body of the loop of `_accepted` for a usable free slot. -/
def acceptReuse (a : Attempt) (ss : Int) (id : ℕ) (s : TcpSlaveServer) : TcpSlaveServer :=
  let uid : Int := id * WORKERS + s.slaveIdx
  match s.construct a ss uid with
  | none => s.acceptFailed ss
  | some c =>
    let s := s.started ss c
    { s with
      emptySet := s.emptySet.erase id
      conduits := s.conduits.set id (some c)
      connUp := if ss < 0 then s.connUp.insert (-ss) uid else s.connUp
      count := s.count + 1
      built := s.built + 1 }

/-- The part of `_accepted` behind the loop. -/
def acceptAppend (a : Attempt) (ss : Int) (s : TcpSlaveServer) : TcpSlaveServer :=
  let id := s.conduits.length
  let uid : Int := id * WORKERS + s.slaveIdx
  match s.construct a ss uid with
  | none => s.acceptFailed ss
  | some c =>
    let s := s.started ss c
    { s with
      conduits := s.conduits ++ [some c]
      count := s.count + 1
      connUp := if ss < 0 then s.connUp.insert (-ss) uid else s.connUp
      built := s.built + 1 }

/-- The loop over `_emptySet`, for at most `fuel` rounds. A free slot beyond the
table is left in the set, so that the next round finds it again. -/
def acceptLoop (a : Attempt) (ss : Int) (s : TcpSlaveServer) : ℕ → Option TcpSlaveServer
  | 0 => none
  | fuel + 1 =>
    if h : s.emptySet.Nonempty then
      let id := s.emptySet.min' h
      if id < s.conduits.length then some (s.acceptReuse a ss id)
      else acceptLoop a ss s fuel
    else some (s.acceptAppend a ss)

/-- `_accepted`; none when its loop does not end. -/
def doAccept (a : Attempt) (ss : Int) (s : TcpSlaveServer) : Option TcpSlaveServer :=
  s.acceptLoop a ss (s.emptySet.card + 1)

/-- `UInt32 rid = id / WORKERS`. -/
def slotOf (id : Int) : ℕ :=
  let q := id.tdiv WORKERS
  (if q < 0 then q + 2 ^ 32 else q).toNat

/-- The `do` loop of `_remove`: the number of slots that stay, and the free set. -/
def trimLoop (conduits : List (Option TcpConduit)) : ℕ → Finset ℕ → ℕ × Finset ℕ
  | 0, emptySet => (0, if emptySet.Nonempty then emptySet.erase 0 else emptySet)
  | rrid + 1, emptySet =>
    let emptySet := if emptySet.Nonempty then emptySet.erase (rrid + 1) else emptySet
    if Slots.slot conduits rrid = none then trimLoop conduits rrid emptySet
    else (rrid + 1, emptySet)

def doRemove (id : Int) (s : TcpSlaveServer) : TcpSlaveServer :=
  let rid := slotOf id
  if rid < s.conduits.length ∧ s.slot rid ≠ none then
    let conduits := s.conduits.set rid none
    let count := if s.count > 0 then s.count - 1 else s.count
    if rid = conduits.length - 1 then
      let (size, emptySet) := trimLoop conduits rid s.emptySet
      { s with conduits := conduits.take size, emptySet := emptySet, count := count }
    else { s with conduits := conduits, emptySet := insert rid s.emptySet, count := count }
  else s

end TcpSlaveServer

end RgcFifa
