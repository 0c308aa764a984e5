import RgcFifa.MsgTypes
import RgcFifa.Worker

/-! The server as a whole: the slave servers, the queue between their threads and the
logic thread, and the table of linked servers that `Logic` routes by. The service is
active; what the managed code sends on its own is an event of its own. -/

namespace RgcFifa

open TcpSlaveServer (slotOf)

/-- A message in the queue, and where it came from: the worker, the slot, kind and serial
of the conduit, how many conduits the worker had built, the frame, and a running number. -/
structure Msg where
  block : MsgBlock
  worker : Fin WORKERS
  slot : ℕ
  kind : ConduitKind
  serial : ℕ
  built : ℕ
  raw : List UInt8
  num : ℕ
  deriving DecidableEq

structure Write where
  worker : Fin WORKERS
  serial : ℕ
  bytes : List UInt8
  cause : Option ℕ
  deriving DecidableEq

/-- `input` holds the unread bytes of each conduit, `draining` the queue that `ProcessMsg`
works on. `received`, `arrived`, `handled` and `writes` are records that the source does
not keep: all bytes a conduit got, all messages queued, those dequeued, and all sends. -/
structure Server where
  workers : Fin WORKERS → Worker
  input : Fin WORKERS → ℕ → List UInt8
  msgQueue : List Msg
  draining : List Msg
  linkedServer : Std.ExtTreeMap UInt32 Int
  received : Fin WORKERS → ℕ → List UInt8
  arrived : List Msg
  handled : List Msg
  writes : List Write

/-- `_connUp[key]`, which makes a missing entry zero. -/
def TcpSlaveServer.connUpAt (key : Int) (s : TcpSlaveServer) : Int × TcpSlaveServer :=
  match s.connUp[key]? with
  | some v => (v, s)
  | none => (0, { s with connUp := s.connUp.insert key 0 })

namespace Server

def start (cfg : ServerCommonConfig) : Server where
  workers := fun k => Worker.start k cfg
  input := fun _ _ => []
  msgQueue := []
  draining := []
  linkedServer := ∅
  received := fun _ _ => []
  arrived := []
  handled := []
  writes := []

abbrev slot (s : Server) (k : Fin WORKERS) (i : ℕ) : Option TcpConduit := (s.workers k).slot i

def setWorker (k : Fin WORKERS) (w : Worker) (s : Server) : Server :=
  { s with workers := Function.update s.workers k w }

def setServer (k : Fin WORKERS) (t : TcpSlaveServer) (s : Server) : Server :=
  s.setWorker k { s.workers k with server := t }

def find (id : Int) (s : Server) : Option (Fin WORKERS × TcpConduit) :=
  if id = -1 then none
  else
    let k := Fin.ofNat WORKERS (id % WORKERS).toNat
    (s.slot k (slotOf id)).map (k, ·)

def findConn (id : Int) (s : Server) : Option (Fin WORKERS × TcpConduit) × Server :=
  if id > 0 then (s.find id, s)
  else
    let up := (s.workers 0).server.connUpAt (-id)
    let s := s.setServer 0 up.2
    (s.find up.1, s)

def send (k : Fin WORKERS) (c : TcpConduit) (buf : List UInt8) (cause : Option ℕ) (s : Server) :
    Server :=
  { s.setServer k ((s.workers k).server.send c buf) with
    writes := s.writes ++ [⟨k, c.serial, buf, cause⟩] }

/-- `TcpServerWrapper::SendMsgToClient(int, const void *, UInt16)`. -/
def sendMsgToClient (sessionID : Int) (buffer : List UInt8) (size : UInt16) (cause : Option ℕ)
    (s : Server) : Server :=
  let conn := s.findConn sessionID
  match conn.1 with
  | none => conn.2
  | some (k, c) => conn.2.send k c (buffer.take size.toNat) cause

/-- `m_mLinkedServer[key]`, which makes a missing entry zero. -/
def linkedServerAt (key : UInt32) (s : Server) : Int × Server :=
  match s.linkedServer[key]? with
  | some v => (v, s)
  | none => (0, { s with linkedServer := s.linkedServer.insert key 0 })

def proxyMsg2Server (sessionID : Int) (cmdid : UInt32) (buffer : List UInt8) (size : ℕ)
    (target source : UInt16) (cause : Option ℕ) (s : Server) : Server :=
  let st := ((Stream.ofHeader cmdid target source).append (buffer.take size)).eos
  s.sendMsgToClient sessionID st.buf (UInt16.ofNat st.size) cause

def processProxyLogic (cmd_id : UInt32) (msgBody : List UInt8) (len : UInt32)
    (target_type target_id source_type source_id : UInt8) (sessionID : Int) (cause : Option ℕ)
    (s : Server) : Server :=
  if cmd_id = 0x01 then
    let s := { s with
      linkedServer := s.linkedServer.insert (SPLIT_ID source_type source_id).toUInt32 sessionID }
    let st := ((Stream.ofHeader 0x2 (SPLIT_ID source_type source_id)
      (SPLIT_ID target_type target_id)).putChars "register_okay_protocol!".toUTF8.toList).eos
    s.sendMsgToClient sessionID st.buf (UInt16.ofNat st.size) cause
  else
    let link := s.linkedServerAt (SPLIT_ID target_type target_id).toUInt32
    link.2.proxyMsg2Server link.1 cmd_id msgBody len.toNat (SPLIT_ID target_type target_id)
      (SPLIT_ID source_type source_id) cause

/-- One round of the loop of `on_read` on the conduit in slot `i`. -/
def readRound (k : Fin WORKERS) (i : ℕ) (s : Server) : Option Server :=
  (s.slot k i).bind fun c =>
    let buffer := s.input k c.serial
    let p := parsePacket c.kind buffer
    if p.cmd < 0 then ((s.workers k).step (.forceClose i)).map (s.setWorker k ·)
    else if p.len ≤ 0 then some s
    else
      let r := p.recv buffer
      let msg : Msg := ⟨(onRecv c.kind r c.uid).block r.buf, k, i, c.kind, c.serial,
        (s.workers k).server.built, buffer.take p.len, s.arrived.length⟩
      some { s with
        input := Function.update s.input k
          (Function.update (s.input k) c.serial (buffer.drop p.len))
        msgQueue := s.msgQueue ++ [msg]
        arrived := s.arrived ++ [msg] }

/-- The calls of `ProcessMsg` into `Logic`. What `ProcessLogic` does is up to the managed code. -/
def callLogic (m : Msg) (s : Server) : Server :=
  match m.block.processMsg with
  | some (.processProxyLogic cmd_id msgBody len target_type target_id source_type source_id
      sessionID) =>
      s.processProxyLogic cmd_id msgBody len target_type target_id source_type source_id
        sessionID (some m.num)
  | _ => s

/-- One round of the loop of `MsgPopHandler::ProcessMsg`. -/
def processMsg (s : Server) : Option Server :=
  match s.draining with
  | [] => none
  | m :: rest => some (callLogic m { s with draining := rest, handled := s.handled ++ [m] })

end Server

inductive ServerEvent where
  | worker (k : Fin WORKERS) (e : WorkerEvent)
  | receive (k : Fin WORKERS) (i : ℕ) (bytes : List UInt8)
  | readRound (k : Fin WORKERS) (i : ℕ)
  | getMsgQueue
  | processMsg
  | sendMsgToClient (sessionID : Int) (buffer : List UInt8) (size : UInt16)
  deriving DecidableEq, Repr

namespace Server

def step : ServerEvent → Server → Option Server
  | .worker k e, s => ((s.workers k).step e).map (s.setWorker k ·)
  | .receive k i bytes, s => (s.slot k i).map fun c =>
      { s with
        input := Function.update s.input k
          (Function.update (s.input k) c.serial (s.input k c.serial ++ bytes))
        received := Function.update s.received k
          (Function.update (s.received k) c.serial (s.received k c.serial ++ bytes)) }
  | .readRound k i, s => s.readRound k i
  | .getMsgQueue, s =>
      if s.draining.isEmpty then some { s with draining := s.msgQueue, msgQueue := [] } else none
  | .processMsg, s => s.processMsg
  | .sendMsgToClient sessionID buffer size, s =>
      some (s.sendMsgToClient sessionID buffer size none)

end Server

end RgcFifa
