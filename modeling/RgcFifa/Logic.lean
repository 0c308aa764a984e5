import RgcFifa.MsgTypes
import RgcFifa.ServerCommon

/-! The entries of the managed code that `Logic` invokes for a message to the server itself. -/

namespace RgcFifa

inductive ManagedCall where
  | setProxy (sessionID : Int)
  | setServiceConfig (service_id max_db_service dbservice : Int)
  | processMsg (sessionID : Int) (cmd_id : UInt32) (array : List UInt8) (packet_len : UInt32)
  deriving DecidableEq, Repr

/-- What a receiver does with a body: the bytes it reads, as offsets and sizes, the managed entries
it invokes, and whether it then writes to its stack where none of its variables is. -/
structure LogicRun where
  touched : List (ℕ × ℕ)
  invoked : List ManagedCall
  fault : Bool
  deriving DecidableEq, Repr

namespace Logic

/-- `args[i] = p` for a local array of pointers; an array has no place past its end. -/
def storeArg (i : ℕ) (p : Int) (args : List (Option Int)) : Option (List (Option Int)) :=
  if i < args.length then some (args.set i (some p)) else none

/-- `args1` is `void* args1[1]`, and the three stores are to its places 0, 1 and 2. -/
def processRegisteredProtocol (cfg : ServerCommonConfig) (sessionID : Int) : LogicRun :=
  let service_id : ℕ := (cfg.serverType.toNat <<< 8) + cfg.serverUID.toNat
  let max_db_service : ℕ := 1
  let dbservice : ℕ := (1 <<< 8) + 1
  let args1 := ((storeArg 0 service_id [none]).bind (storeArg 1 max_db_service)).bind
    (storeArg 2 dbservice)
  if args1.isSome then
    ⟨[], [.setProxy sessionID, .setServiceConfig service_id max_db_service dbservice], false⟩
  else ⟨[], [.setProxy sessionID], true⟩

/-- `found` tells whether `GetInvokeMethod` finds the entry `ProcessMsg`. -/
def processLogic (cfg : ServerCommonConfig) (found : Bool) (cmd_id : UInt32) (msgBody : List UInt8)
    (len : UInt32) (sessionID : Int) : LogicRun :=
  if cmd_id = 0x02 then processRegisteredProtocol cfg sessionID
  else if ¬ found then ⟨[], [], false⟩
  else if len ≤ 2 then ⟨[], [], false⟩
  else
    let length := msgBody.take 2
    let array := (msgBody.drop 2).take (len - 2).toNat
    ⟨[(0, 2), (2, (len - 2).toNat)],
      [.processMsg sessionID cmd_id array (UInt32.ofNat (ByteWords.leNat length))], false⟩

/-- The second store is out of bounds already. -/
theorem processRegisteredProtocol_eq (cfg : ServerCommonConfig) (sessionID : Int) :
    processRegisteredProtocol cfg sessionID = ⟨[], [.setProxy sessionID], true⟩ := rfl

end Logic

/-- What the server itself runs for one call of the logic thread. -/
def LogicCall.logicRun (cfg : ServerCommonConfig) (found : Bool) : LogicCall → Option LogicRun
  | .processLogic cmd_id msgBody len sessionID =>
      some (Logic.processLogic cfg found cmd_id msgBody len sessionID)
  | .processProxyLogic _ _ _ _ _ _ _ _ => none

/-- The managed entries invoked for one call of the logic thread. -/
def LogicCall.managed (cfg : ServerCommonConfig) (found : Bool) : LogicCall → List ManagedCall
  | .processLogic cmd_id msgBody len sessionID =>
      (Logic.processLogic cfg found cmd_id msgBody len sessionID).invoked
  | .processProxyLogic _ _ _ _ _ _ _ _ => []

theorem processLogic_short {cfg : ServerCommonConfig} {found : Bool} {cmd_id len : UInt32}
    {msgBody : List UInt8} {sessionID : Int} (hcmd : cmd_id ≠ 2) (hlen : len ≤ 2) :
    Logic.processLogic cfg found cmd_id msgBody len sessionID = ⟨[], [], false⟩ := by
  rw [Logic.processLogic, if_neg hcmd, if_pos hlen]
  split_ifs <;> rfl

theorem processLogic_long {cfg : ServerCommonConfig} {cmd_id len : UInt32} {msgBody : List UInt8}
    {sessionID : Int} (hcmd : cmd_id ≠ 2) (hlen : 2 < len) (hb : len.toNat = msgBody.length) :
    Logic.processLogic cfg true cmd_id msgBody len sessionID =
      ⟨[(0, 2), (2, msgBody.length - 2)], [.processMsg sessionID cmd_id (msgBody.drop 2)
        (UInt32.ofNat (ByteWords.leNat (msgBody.take 2)))], false⟩ := by
  have hsub : (len - 2).toNat = msgBody.length - 2 := by
    rw [UInt32.toNat_sub_of_le _ _ (UInt32.le_of_lt hlen), hb]
    rfl
  have htake : (msgBody.drop 2).take (msgBody.length - 2) = msgBody.drop 2 :=
    List.take_of_length_le (List.length_drop.le)
  rw [Logic.processLogic, if_neg hcmd, if_neg (by simp), if_neg (UInt32.not_le.mpr hlen), hsub, htake]

end RgcFifa
