import Mathlib.Tactic

/-! `ServerCommonConfig`: who a server is and which servers it connects to. -/

namespace RgcFifa

structure ServerCommonConfig where
  serverType : UInt8
  serverUID : UInt8
  serverListenPort : UInt16
  serverConnectMap : Std.ExtTreeMap UInt16 (String × UInt16)

namespace ServerCommonConfig

def ofType (type uid : UInt8) (port : UInt16) : ServerCommonConfig := ⟨type, uid, port, ∅⟩

def addConnectList (uid : UInt16) (ip : String) (port : UInt16) (c : ServerCommonConfig) :
    ServerCommonConfig :=
  { c with serverConnectMap := c.serverConnectMap.insert uid (ip, port) }

/-- `AddConnectList(UInt8 type, UInt8 uid, ip, port)`. -/
def addConnectListOf (type uid : UInt8) (ip : String) (port : UInt16) (c : ServerCommonConfig) :
    ServerCommonConfig :=
  c.addConnectList ((type.toUInt16 <<< 8) + uid.toUInt16) ip port

/-- `operator=`. Entries of the target that the argument lacks stay. -/
def assign (c config : ServerCommonConfig) : ServerCommonConfig :=
  config.serverConnectMap.foldl
    (fun (this : ServerCommonConfig) (key : UInt16) (entry : String × UInt16) =>
      this.addConnectListOf (key >>> 8).toUInt8 (key &&& 0xFF).toUInt8 entry.1 entry.2)
    { c with
      serverType := config.serverType
      serverUID := config.serverUID
      serverListenPort := config.serverListenPort }

def getIpFromConnectMap (uid : UInt16) (c : ServerCommonConfig) : String :=
  match c.serverConnectMap[uid]? with
  | none => "127.0.0.1"
  | some entry => entry.1

def getPortFromConnectMap (uid : UInt16) (c : ServerCommonConfig) : UInt16 :=
  match c.serverConnectMap[uid]? with
  | none => 0
  | some entry => entry.2

end ServerCommonConfig

end RgcFifa
