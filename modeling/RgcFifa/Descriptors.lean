import RgcFifa.Restart
import RgcFifa.Worker

/-! Where the socket descriptors are: in an operation list, with a conduit, or closed. A number
is handed out again once it is closed, so the accounts are kept for each number. -/

namespace RgcFifa

open TcpSlaveServer (slotOf)

/-- What `~TcpConduit` closes. -/
def TcpConduit.destruct (c : TcpConduit) : List Int := if c.socket ≠ 0 then [c.socket] else []

namespace TcpSlaveServer

/-- The descriptor that `newConnection` gets from `socket()`. -/
def connects (a : Attempt) (ss : Int) (s : TcpSlaveServer) : Option Int :=
  if ss < 0 then
    if s.serverCfg.getPortFromConnectMap (UInt16.ofInt (-ss)) ≤ 0 then none
    else if a.sock < 0 then none
    else some a.sock
  else none

/-- What the handler in `_accepted` closes with the conduit that it deletes. -/
def deleted (a : Attempt) (ss uid : Int) (s : TcpSlaveServer) : List Int :=
  if ss < 0 then
    match s.newConnection a ss uid with
    | .made c => if a.connectThrows then c.destruct else []
    | _ => []
  else []

end TcpSlaveServer

/-- A slave server with its thread. `detached` are conduits that have left the table and are
destroyed with the last `shared_ptr`; `ended` says that the thread has left `run()`. -/
structure Slave where
  worker : Worker
  detached : List TcpConduit
  ended : Bool

/-- The calls that come from the thread of the master server. -/
def WorkerEvent.outside : WorkerEvent → Bool
  | .initConnection _ => true
  | .accepted _ => true
  | _ => false

namespace Slave

/-- The descriptors that a step gets from `accept()` or `socket()`. -/
def obtains (e : WorkerEvent) (d : Slave) : List Int :=
  match e, d.worker.rlist with
  | .accepted sock, _ => [(sock : Int)]
  | .exec a, .accept ss :: _ => (d.worker.server.connects a ss).toList
  | _, _ => []

def closes (e : WorkerEvent) (d : Slave) : List Int :=
  match e, d.worker.rlist with
  | .exec a, .accept ss :: _ =>
      d.worker.server.deleted a ss (d.worker.server.nextSlot * WORKERS + d.worker.server.slaveIdx)
  | _, _ => []

/-- The conduit that `_remove` takes out of the table. -/
def unlinked (e : WorkerEvent) (d : Slave) : List TcpConduit :=
  match e, d.worker.rlist with
  | .exec _, .remove id _ :: _ => (d.worker.slot (slotOf id)).toList
  | _, _ => []

def step (e : WorkerEvent) (d : Slave) : Option Slave :=
  if d.ended && !e.outside then none
  else (d.worker.step e).map fun w =>
    { d with worker := w, detached := d.detached ++ d.unlinked e }

/-- The end of `event_base_dispatch`, outside of `onOpCheck`; `last` is the end of `run()`. -/
def destroy (last : Bool) (d : Slave) : Option Slave :=
  if d.ended || !d.worker.rlist.isEmpty then none
  else some { worker := { d.worker with server := d.worker.server.destroy }
              detached := d.detached ++ d.worker.server.conduits.reduceOption
              ended := last }

/-- In the operation list of a running server, or in the batch that it works off. A thread that
spins in `_accepted` never gets to the rest of its batch. -/
def queued (n : Int) (d : Slave) : ℕ :=
  if d.ended then 0
  else
    d.worker.server.opList.count (.accept n) +
      (if d.worker.server.AcceptEnds then d.worker.rlist.count (.accept n) else 0)

def owned (n : Int) (d : Slave) : ℕ :=
  Slots.tally (·.socket = n) d.worker.server.conduits + d.detached.countP (·.socket = n)

def holds (n : Int) (d : Slave) : ℕ := d.queued n + d.owned n

end Slave

/-- The slave servers of a master server. The last two fields are history. -/
structure Sockets where
  slaves : Fin WORKERS → Slave
  obtained : List Int
  closed : List Int

/-- Which worker gets a connection depends on counts that are read one after the other
before, so `worker k (.accepted sock)` is possible for each `k`. -/
inductive SocketEvent where
  | worker (k : Fin WORKERS) (e : WorkerEvent)
  | release (k : Fin WORKERS) (i : ℕ)
  | destroy (k : Fin WORKERS) (last : Bool)
  deriving DecidableEq, Repr

namespace Sockets

def start (cfg : ServerCommonConfig) : Sockets := ⟨fun k => ⟨Worker.start k cfg, [], false⟩, [], []⟩

/-- The kernel has handed out `n` and not taken it back. -/
def IsOpen (n : Int) (s : Sockets) : Prop := s.closed.count n < s.obtained.count n

instance (n : Int) (s : Sockets) : Decidable (s.IsOpen n) := inferInstanceAs (Decidable (_ < _))

def setSlave (k : Fin WORKERS) (d : Slave) (s : Sockets) : Sockets :=
  { s with slaves := Function.update s.slaves k d }

/-- `accept()` and `socket()` return a number that is not open. -/
def step : SocketEvent → Sockets → Option Sockets
  | .worker k e, s =>
      let d := s.slaves k
      if ∀ n ∈ d.obtains e, ¬ s.IsOpen n then
        (d.step e).map fun d' =>
          { s.setSlave k d' with
            obtained := s.obtained ++ d.obtains e
            closed := s.closed ++ d.closes e }
      else none
  | .release k i, s =>
      let d := s.slaves k
      (d.detached[i]?).map fun c =>
        { s.setSlave k { d with detached := d.detached.eraseIdx i } with
          closed := s.closed ++ c.destruct }
  | .destroy k last, s => ((s.slaves k).destroy last).map (s.setSlave k ·)

def holders (n : Int) (s : Sockets) : ℕ := ∑ k, (s.slaves k).holds n

/-- A descriptor that is not held has been closed as often as it was handed out, and one that is
held has been closed once less. -/
def Conserved (s : Sockets) : Prop := ∀ n ∈ s.obtained,
  s.holders n ≤ 1 ∧ s.obtained.count n = s.closed.count n + s.holders n

instance (s : Sockets) : Decidable s.Conserved := inferInstanceAs (Decidable (∀ n ∈ _, _))

end Sockets

/-- The operation carries a descriptor. -/
def OpStruct.carries : OpStruct → Bool
  | .accept data => 0 < data
  | .remove _ _ => false

/-- No conduit fails to be made for a descriptor, no descriptor is 0, and the thread takes
descriptors only when `_accepted` ends. -/
def Slave.Keeps (e : WorkerEvent) (d : Slave) : Prop :=
  match e, d.worker.rlist with
  | .accepted sock, _ => sock ≠ 0 ∧ d.ended = false
  | .takeOps, _ => d.worker.server.AcceptEnds ∨ ∀ op ∈ d.worker.server.opList, op.carries = false
  | .exec a, .accept ss :: _ =>
      (0 < ss ∨ (d.worker.server.connects a ss).isSome → ¬ a.allocFails ∧ ¬ a.ctorThrows) ∧
        d.worker.server.connects a ss ≠ some 0
  | _, _ => True

instance (e : WorkerEvent) (d : Slave) : Decidable (d.Keeps e) := by
  unfold Slave.Keeps
  split <;> infer_instance

/-- A thread leaves `run()` only with no descriptor in its list, and gets none afterwards. -/
def Sockets.Keeps : SocketEvent → Sockets → Prop
  | .worker k e, s => (s.slaves k).Keeps e
  | .release _ _, _ => True
  | .destroy k last, s => last = true → ∀ op ∈ (s.slaves k).worker.server.opList, op.carries = false

instance : ∀ (e : SocketEvent) (s : Sockets), Decidable (Sockets.Keeps e s)
  | .worker k e, s => inferInstanceAs (Decidable ((s.slaves k).Keeps e))
  | .release _ _, _ => .isTrue trivial
  | .destroy k last, s => inferInstanceAs (Decidable (last = true →
      ∀ op ∈ (s.slaves k).worker.server.opList, op.carries = false))

namespace TcpSlaveServer

variable {a : Attempt} {ss uid n : Int} {s t : TcpSlaveServer}

theorem newConnection_of_none (uid : Int) (h : s.connects a ss = none) :
    s.newConnection a ss uid = .null := by
  unfold connects at h
  unfold newConnection
  split_ifs at h ⊢ <;> rfl

theorem newConnection_of_some (uid : Int) {sock : Int} (h : s.connects a ss = some sock) :
    s.newConnection a ss uid = make a ⟨.clientConn (-ss), sock, uid, s.built⟩ := by
  unfold connects at h
  unfold newConnection
  split_ifs at h ⊢
  rw [Option.some.inj h]

theorem lt_of_connects {sock : Int} (h : s.connects a ss = some sock) : ss < 0 := by
  unfold connects at h
  by_contra hs
  rw [if_neg hs] at h
  cases h

theorem make_eq (h : ¬ a.allocFails ∧ ¬ a.ctorThrows) (c : TcpConduit) : make a c = .made c := by
  rw [make, if_neg h.1, if_neg h.2]

theorem destruct_count (hn : 0 < n) (c : TcpConduit) :
    c.destruct.count n = if c.socket = n then 1 else 0 := by
  by_cases hc : c.socket = 0
  · simp [TcpConduit.destruct, hc, hn.ne]
  · simp [TcpConduit.destruct, hc, List.count_singleton]

theorem nonneg_of_connects {sock : Int} (h : s.connects a ss = some sock) : 0 ≤ sock := by
  unfold connects at h
  split_ifs at h with hs hport hsock
  rw [← Option.some.inj h]
  exact not_lt.mp hsock

/-- What comes in with an operation or from `socket()` goes into the conduit or is closed. -/
theorem construct_flow (uid : Int) (hn : 0 < n)
    (hk : 0 < ss ∨ (s.connects a ss).isSome → ¬ a.allocFails ∧ ¬ a.ctorThrows) :
    (if (s.construct a ss uid).any (·.socket = n) then 1 else 0) +
      (s.deleted a ss uid).count n =
    (if ss = n then 1 else 0) + (s.connects a ss).toList.count n := by
  cases hc : s.connects a ss with
  | some sock =>
    have hs := lt_of_connects hc
    have hne : ss ≠ n := by omega
    rw [construct, deleted, if_pos hs, if_pos hs, newConnection_of_some uid hc,
      make_eq (hk (Or.inr (by rw [hc]; rfl))), if_neg hne]
    by_cases ht : a.connectThrows = true
    · simp [ht, destruct_count hn, List.count_singleton]
    · simp [ht, List.count_singleton]
  | none =>
    by_cases hs : ss < 0
    · have hne : ss ≠ n := by omega
      rw [construct, deleted, if_pos hs, if_pos hs, newConnection_of_none uid hc, if_neg hne]
      rfl
    · rw [construct, deleted, if_neg hs, if_neg hs, newConduit]
      by_cases hpos : 0 < ss
      · simp [make_eq (hk (Or.inl hpos))]
      · have hne : ss ≠ n := by omega
        cases hm : make a ⟨.gameClient, ss, uid, s.built⟩ with
        | null => simp [hne]
        | throws => simp [hne]
        | made c => simp [make_made hm, hne]

theorem accept_flow (h : s.SlotInv) (ht : s.doAccept a ss = some t) (hn : 0 < n)
    (hk : 0 < ss ∨ (s.connects a ss).isSome → ¬ a.allocFails ∧ ¬ a.ctorThrows) :
    Slots.tally (·.socket = n) t.conduits +
      (s.deleted a ss (s.nextSlot * WORKERS + s.slaveIdx)).count n =
    Slots.tally (·.socket = n) s.conduits +
      ((if ss = n then 1 else 0) + (s.connects a ss).toList.count n) := by
  have hflow := construct_flow (s.nextSlot * WORKERS + s.slaveIdx) hn hk
  obtain ⟨u, hu, hcases⟩ := doAccept_cases a ss h
  obtain rfl : u = t := Option.some.inj (hu.symm.trans ht)
  rcases hcases with ⟨hnone, rfl⟩ | ⟨c, hi⟩
  · simp only [hnone, Option.any_none, Bool.false_eq_true, if_false] at hflow
    have htable : (s.acceptFailed ss).conduits = s.conduits := by rw [acceptFailed_eq]
    rw [htable]
    omega
  · have hfree : s.slot s.nextSlot = none := h.tidy.next_isLeast.1
    have htally := Slots.tally_update (·.socket = n) hi.slot
    simp only [hfree, Option.any_none, Bool.false_eq_true, if_false] at htally
    rw [hi.construct] at hflow
    omega

theorem remove_flow (h : s.SlotInv) (id : Int) :
    Slots.tally (·.socket = n) (s.doRemove id).conduits +
      (s.slot (slotOf id)).toList.countP (·.socket = n) =
    Slots.tally (·.socket = n) s.conduits := by
  cases hc : s.slot (slotOf id) with
  | none => rw [doRemove_none hc]; rfl
  | some c =>
    have htally := Slots.tally_update (·.socket = n) (doRemove_some h hc).slot
    have hslot : Slots.slot s.conduits (slotOf id) = some c := hc
    rw [hslot] at htally
    simpa [List.countP_cons] using htally

/-- The table after a `destroy` that leaves free slots behind: it stays empty for good. -/
def Table (s : TcpSlaveServer) : Prop := s.SlotInv ∨ s.conduits = [] ∧ s.emptySet.Nonempty

theorem Table.same (h : s.Table) (ht : Worker.SameTable s t) : t.Table := by
  rcases h with h | ⟨hnil, hne⟩
  · exact Or.inl (ht.table h).1
  · rw [ht]
    exact Or.inr ⟨hnil, hne⟩

theorem acceptEnds_congr (ht : Worker.SameTable s t) : t.AcceptEnds ↔ s.AcceptEnds := by
  rw [acceptEnds_iff, acceptEnds_iff, ht]

theorem Table.slotInv_of_doAccept (h : s.Table) (ht : s.doAccept a ss = some t) : s.SlotInv := by
  rcases h with h | ⟨hnil, hne⟩
  · exact h
  · rw [doAccept, acceptLoop_stuck a ss hne (by simp [hnil])] at ht
    cases ht

theorem Table.slotInv_of_slot (h : s.Table) {i : ℕ} {c : TcpConduit} (hc : s.slot i = some c) :
    s.SlotInv := by
  rcases h with h | ⟨hnil, _⟩
  · exact h
  · have hlt := Slots.slot_lt hc
    rw [hnil] at hlt
    cases hlt

theorem table_destroy (s : TcpSlaveServer) : s.destroy.Table := by
  by_cases he : s.emptySet = ∅
  · exact Or.inl (slotInv_destroy he)
  · exact Or.inr ⟨rfl, Finset.nonempty_iff_ne_empty.mpr he⟩

end TcpSlaveServer

namespace Slave

variable {d d' : Slave} {e : WorkerEvent} {n : Int} {w : Worker}

/-- The calls from outside and `forceClose` append to the operation list at most. -/
theorem push_flow (he : ∀ a, e ≠ .exec a) (htake : e ≠ .takeOps) (hw : d.worker.step e = some w) :
    Worker.SameTable d.worker.server w.server ∧ w.rlist = d.worker.rlist ∧ d.closes e = [] ∧
      d.unlinked e = [] ∧ ∀ n, 0 < n → w.server.opList.count (.accept n) =
        d.worker.server.opList.count (.accept n) + (d.obtains e).count n := by
  cases e with
  | initConnection key =>
    obtain rfl := Option.some.inj hw
    by_cases hup : d.worker.server.isUp key.toNat
    · have hsame : d.worker.server.initConnection key.toNat = d.worker.server := if_pos hup
      rw [hsame]
      exact ⟨rfl, rfl, rfl, rfl, fun _ _ => rfl⟩
    · have hpush : d.worker.server.initConnection key.toNat =
        { d.worker.server with
          connUp := d.worker.server.connUp.insert key.toNat 0
          opList := d.worker.server.opList ++ [.accept (-key.toNat)] } := if_neg hup
      rw [hpush]
      refine ⟨rfl, rfl, rfl, rfl, ?_⟩
      intro n hn
      have hne : -(key.toNat : Int) ≠ n := by omega
      simp [obtains, hne]
  | accepted sock =>
    obtain rfl := Option.some.inj hw
    refine ⟨rfl, rfl, rfl, rfl, fun n _ => ?_⟩
    simp [TcpSlaveServer.accepted, obtains, List.count_cons]
  | forceClose i =>
    obtain ⟨c, _, rfl⟩ := Option.map_eq_some_iff.mp hw
    rw [TcpSlaveServer.forceClose, TcpSlaveServer.onDisconnected]
    cases c.kind with
    | gameClient =>
      refine ⟨rfl, rfl, rfl, rfl, fun n _ => ?_⟩
      simp [TcpSlaveServer.remove, obtains]
    | clientConn ss =>
      refine ⟨rfl, rfl, rfl, rfl, fun n _ => ?_⟩
      simp [TcpSlaveServer.remove, TcpSlaveServer.lostConnection, obtains]
  | takeOps => exact absurd rfl htake
  | exec a => exact absurd rfl (he a)

theorem step_eq_some (h : d.step e = some d') : (d.ended = true → e.outside = true) ∧
    ∃ w, d.worker.step e = some w ∧
      d' = { d with worker := w, detached := d.detached ++ d.unlinked e } := by
  unfold step at h
  split_ifs at h with hend
  obtain ⟨w, hw, rfl⟩ := Option.map_eq_some_iff.mp h
  exact ⟨by simpa using hend, w, hw, rfl⟩

theorem count_eq_zero_of_carries {ops : List OpStruct} (h : ∀ op ∈ ops, op.carries = false)
    (hn : 0 < n) : ops.count (.accept n) = 0 := by
  apply List.count_eq_zero.mpr
  intro hmem
  exact absurd hn (of_decide_eq_false (h _ hmem))

theorem flow_of_push (he : ∀ a, e ≠ .exec a) (htake : e ≠ .takeOps) (hd : d.worker.server.Table)
    (hk : d.Keeps e) (h : d.step e = some d') : d'.worker.server.Table ∧
      ∀ n, 0 < n → d'.holds n + (d.closes e).count n = d.holds n + (d.obtains e).count n := by
  obtain ⟨hend, w, hw, rfl⟩ := step_eq_some h
  obtain ⟨htable, hrlist, hcloses, hunlinked, hpushed⟩ := push_flow he htake hw
  refine ⟨hd.same htable, fun n hn => ?_⟩
  have hconduits : w.server.conduits = d.worker.server.conduits := by rw [htable]
  have hends := TcpSlaveServer.acceptEnds_congr htable
  have hlist := hpushed n hn
  by_cases hended : d.ended = true
  · have hobtains : d.obtains e = [] := by
      cases e with
      | accepted sock => exact absurd hended (by simp [hk.2])
      | initConnection key => rfl
      | forceClose i => rfl
      | takeOps => rfl
      | exec a => exact absurd rfl (he a)
    simp [holds, owned, queued, hcloses, hunlinked, hconduits, hended, hobtains]
  · simp only [holds, owned, queued, hcloses, hunlinked, hconduits, hrlist, hends, if_neg hended,
      List.append_nil, List.count_nil]
    omega

/-- The whole list goes into the batch, which the thread works off or which has no descriptor. -/
theorem flow_of_takeOps (hd : d.worker.server.Table) (hk : d.Keeps .takeOps)
    (h : d.step .takeOps = some d') :
    d'.worker.server.Table ∧ ∀ n, 0 < n → d'.holds n = d.holds n := by
  obtain ⟨hend, w, hw, rfl⟩ := step_eq_some h
  have hended : d.ended = false := by simpa [WorkerEvent.outside] using hend
  simp only [Worker.step] at hw
  split_ifs at hw with hr
  obtain rfl := Option.some.inj hw
  rw [List.isEmpty_iff] at hr
  have hsame : Worker.SameTable d.worker.server { d.worker.server with opList := [] } := rfl
  have hends := TcpSlaveServer.acceptEnds_congr hsame
  refine ⟨hd.same hsame, fun n hn => ?_⟩
  have htaken : (if d.worker.server.AcceptEnds then
      d.worker.server.opList.count (.accept n) else 0) =
      d.worker.server.opList.count (.accept n) := by
    rcases hk with hk | hk
    · exact if_pos hk
    · rw [count_eq_zero_of_carries hk hn, ite_self]
  simp only [holds, owned, queued, unlinked, hended, hends, hr, htaken, List.append_nil,
    List.count_nil, ite_self, Bool.false_eq_true, if_false]
  omega

theorem flow_of_exec {a : Attempt} (hd : d.worker.server.Table) (hk : d.Keeps (.exec a))
    (h : d.step (.exec a) = some d') : d'.worker.server.Table ∧ ∀ n, 0 < n →
      d'.holds n + (d.closes (.exec a)).count n = d.holds n + (d.obtains (.exec a)).count n := by
  obtain ⟨hend, w, hw, rfl⟩ := step_eq_some h
  have hended : d.ended = false := by simpa [WorkerEvent.outside] using hend
  cases hr : d.worker.rlist with
  | nil => simp [Worker.step, Worker.execOp, hr] at hw
  | cons op ops =>
    cases op with
    | accept ss =>
      simp only [Worker.step, Worker.execOp, hr] at hw
      obtain ⟨t, ht, rfl⟩ := Option.map_eq_some_iff.mp hw
      have hinv := hd.slotInv_of_doAccept ht
      simp only [Keeps, hr] at hk
      refine ⟨Or.inl (hinv.doAccept ht), fun n hn => ?_⟩
      have hflow := TcpSlaveServer.accept_flow hinv ht hn hk.1
      have hlist : t.opList = d.worker.server.opList := by
        obtain ⟨u, hu, hcases⟩ := TcpSlaveServer.doAccept_cases a ss hinv
        obtain rfl : u = t := Option.some.inj (hu.symm.trans ht)
        exact Worker.opList_accepted hcases
      have hhead : (if (OpStruct.accept ss == .accept n) = true then 1 else 0) =
          if ss = n then 1 else 0 := by simp
      simp only [holds, owned, queued, closes, obtains, unlinked, hr, hended, hlist, hinv.acceptEnds,
        (hinv.doAccept ht).acceptEnds, List.append_nil, List.count_cons, hhead,
        Bool.false_eq_true, if_false, if_true]
      omega
    | remove id issuer =>
      simp only [Worker.step, Worker.execOp, hr] at hw
      obtain rfl := Option.some.inj hw
      have hcases : (d.worker.server.doRemove id).Table ∧
          (d.worker.server.doRemove id).opList = d.worker.server.opList ∧
          ((d.worker.server.doRemove id).AcceptEnds ↔ d.worker.server.AcceptEnds) ∧ ∀ n : Int,
          Slots.tally (·.socket = n) (d.worker.server.doRemove id).conduits +
            (d.worker.slot (slotOf id)).toList.countP (·.socket = n) =
          Slots.tally (·.socket = n) d.worker.server.conduits := by
        cases hc : d.worker.slot (slotOf id) with
        | none =>
          rw [TcpSlaveServer.doRemove_none hc]
          exact ⟨hd, rfl, Iff.rfl, fun _ => rfl⟩
        | some c =>
          have hinv := hd.slotInv_of_slot hc
          have hends := iff_of_true (hinv.doRemove id).acceptEnds hinv.acceptEnds
          rw [← hc]
          exact ⟨Or.inl (hinv.doRemove id), Worker.opList_doRemove hinv id, hends, fun n =>
            TcpSlaveServer.remove_flow hinv id⟩
      obtain ⟨htable, hlist, hends, hflow⟩ := hcases
      refine ⟨htable, fun n hn => ?_⟩
      have htally := hflow n
      have hother : (OpStruct.remove id issuer :: ops).count (.accept n) = ops.count (.accept n) :=
        List.count_cons_of_ne (by simp)
      simp only [holds, owned, queued, closes, obtains, unlinked, hr, hended, hlist, hends, hother,
        List.countP_append, List.count_nil, Bool.false_eq_true, if_false]
      omega

theorem flow (hd : d.worker.server.Table) (hk : d.Keeps e) (h : d.step e = some d') :
    d'.worker.server.Table ∧
      ∀ n, 0 < n → d'.holds n + (d.closes e).count n = d.holds n + (d.obtains e).count n := by
  by_cases he : ∃ a, e = .exec a
  · obtain ⟨a, rfl⟩ := he
    exact flow_of_exec hd hk h
  · by_cases htake : e = .takeOps
    · subst htake
      obtain ⟨htable, hsame⟩ := flow_of_takeOps hd hk h
      exact ⟨htable, fun n hn => congrArg (· + _) (hsame n hn)⟩
    · exact flow_of_push (fun a ha => he ⟨a, ha⟩) htake hd hk h

/-- A step gets at most one descriptor, and not descriptor 0. -/
theorem obtains_cases (hk : d.Keeps e) : d.obtains e = [] ∨ ∃ n, 0 < n ∧ d.obtains e = [n] := by
  cases e with
  | initConnection key => exact Or.inl rfl
  | accepted sock => exact Or.inr ⟨sock, Int.natCast_pos.mpr (Nat.pos_of_ne_zero hk.1), rfl⟩
  | forceClose i => exact Or.inl rfl
  | takeOps => exact Or.inl rfl
  | exec a =>
    cases hr : d.worker.rlist with
    | nil => exact Or.inl (by simp [obtains, hr])
    | cons op ops =>
      cases op with
      | remove id issuer => exact Or.inl (by simp [obtains, hr])
      | accept ss =>
        simp only [Keeps, hr] at hk
        cases hc : d.worker.server.connects a ss with
        | none => exact Or.inl (by simp [obtains, hr, hc])
        | some sock =>
          have hne : sock ≠ 0 := fun hz => hk.2 (hz ▸ hc)
          have hnonneg := TcpSlaveServer.nonneg_of_connects hc
          exact Or.inr ⟨sock, by omega, by simp [obtains, hr, hc]⟩

/-- The conduits of the table become detached, and what is left in the list of a thread that
ends carries no descriptor. -/
theorem flow_of_destroy {last : Bool} (h : d.destroy last = some d')
    (hk : last = true → ∀ op ∈ d.worker.server.opList, op.carries = false) :
    d'.worker.server.Table ∧ ∀ n, 0 < n → d'.holds n = d.holds n := by
  unfold destroy at h
  split_ifs at h with hend
  obtain rfl := Option.some.inj h
  simp only [Bool.or_eq_true, not_or, Bool.not_eq_true, Bool.not_eq_false', List.isEmpty_iff] at hend
  obtain ⟨hended, hr⟩ := hend
  refine ⟨TcpSlaveServer.table_destroy d.worker.server, fun n hn => ?_⟩
  have hlist : last = true → d.worker.server.opList.count (.accept n) = 0 := fun hlast =>
    count_eq_zero_of_carries (hk hlast) hn
  have howned := Slots.countP_reduceOption (·.socket = n) d.worker.server.conduits
  have hqueued : (if last then 0 else d.worker.server.opList.count (.accept n)) =
      d.worker.server.opList.count (.accept n) := by
    split_ifs with hlast
    · exact (hlist hlast).symm
    · rfl
  have hempty : Slots.tally (·.socket = n) d.worker.server.destroy.conduits = 0 := rfl
  have hops : d.worker.server.destroy.opList = d.worker.server.opList := rfl
  simp only [holds, queued, owned, hended, hr, hempty, hops, List.count_nil, ite_self,
    List.countP_append, howned, Nat.add_zero, Bool.false_eq_true, if_false]
  rw [hqueued]
  omega

end Slave

namespace Sockets

variable {s t : Sockets} {k : Fin WORKERS} {d : Slave} {n : Int}

theorem holders_setSlave (n : Int) (k : Fin WORKERS) (d : Slave) (s : Sockets) :
    (s.setSlave k d).holders n + (s.slaves k).holds n = s.holders n + d.holds n := by
  have hrest : ∑ j ∈ Finset.univ.erase k, ((s.setSlave k d).slaves j).holds n =
      ∑ j ∈ Finset.univ.erase k, (s.slaves j).holds n := by
    apply Finset.sum_congr rfl
    intro j hj
    simp [setSlave, Finset.ne_of_mem_erase hj]
  have hself : (s.setSlave k d).slaves k = d := by simp [setSlave]
  rw [holders, holders, ← Finset.add_sum_erase _ _ (Finset.mem_univ k),
    ← Finset.add_sum_erase _ _ (Finset.mem_univ k), hrest, hself]
  omega

structure Inv (s : Sockets) : Prop where
  table : ∀ k, (s.slaves k).worker.server.Table
  pos : ∀ n ∈ s.obtained, 0 < n
  le_one : ∀ n, 0 < n → s.holders n ≤ 1
  balance : ∀ n, 0 < n → s.obtained.count n = s.closed.count n + s.holders n

theorem inv_start (cfg : ServerCommonConfig) : (start cfg).Inv := by
  have hholders : ∀ n, (start cfg).holders n = 0 := fun n => Finset.sum_eq_zero fun k _ => rfl
  refine ⟨fun k => Or.inl (TcpSlaveServer.slotInv_start k cfg), fun n hn => ?_, fun n _ => ?_,
    fun n _ => ?_⟩
  · exact absurd hn List.not_mem_nil
  · rw [hholders]
    exact Nat.zero_le 1
  · rw [hholders]
    rfl

theorem Inv.conserved (h : s.Inv) : s.Conserved := fun n hn =>
  ⟨h.le_one n (h.pos n hn), h.balance n (h.pos n hn)⟩

/-- A change of one slave server that keeps its accounts: what is obtained is not open. -/
theorem Inv.setSlave {obt cls : List Int} (h : s.Inv) (hd : d.worker.server.Table)
    (hobt : obt = [] ∨ ∃ n, 0 < n ∧ obt = [n]) (hfree : ∀ n ∈ obt, ¬ s.IsOpen n)
    (hflow : ∀ n, 0 < n → d.holds n + cls.count n = (s.slaves k).holds n + obt.count n) :
    Inv { s.setSlave k d with obtained := s.obtained ++ obt, closed := s.closed ++ cls } := by
  have hbalance : ∀ n, 0 < n → (s.obtained ++ obt).count n =
      (s.closed ++ cls).count n + (s.setSlave k d).holders n := by
    intro n hn
    have hmove := holders_setSlave n k d s
    have hkeep := hflow n hn
    have hlaw := h.balance n hn
    rw [List.count_append, List.count_append]
    omega
  have hle : ∀ n, 0 < n → (s.setSlave k d).holders n ≤ 1 := by
    intro n hn
    have hmove := holders_setSlave n k d s
    have hkeep := hflow n hn
    have hlaw := h.balance n hn
    have hone := h.le_one n hn
    rcases hobt with rfl | ⟨m, _, rfl⟩
    · simp only [List.count_nil] at hkeep
      omega
    · by_cases hm : m = n
      · have hopen := hfree m (List.mem_singleton_self m)
        rw [hm, IsOpen] at hopen
        simp only [hm, List.count_singleton_self] at hkeep
        omega
      · rw [List.count_singleton, if_neg (by simpa using hm)] at hkeep
        omega
  have hpos : ∀ n ∈ s.obtained ++ obt, 0 < n := by
    intro n hn
    rcases List.mem_append.mp hn with hn | hn
    · exact h.pos n hn
    · rcases hobt with rfl | ⟨m, hm, rfl⟩
      · cases hn
      · rw [List.mem_singleton.mp hn]
        exact hm
  refine ⟨fun j => ?_, hpos, hle, hbalance⟩
  by_cases hj : j = k
  · simpa [Sockets.setSlave, hj] using hd
  · simpa [Sockets.setSlave, hj] using h.table j

theorem Inv.step {e : SocketEvent} (h : s.Inv) (hk : Keeps e s) (ht : step e s = some t) :
    t.Inv := by
  cases e with
  | worker k e =>
    simp only [Sockets.step] at ht
    split_ifs at ht with hfree
    obtain ⟨d, hd, rfl⟩ := Option.map_eq_some_iff.mp ht
    obtain ⟨htable, hflow⟩ := Slave.flow (h.table k) hk hd
    exact h.setSlave htable (Slave.obtains_cases hk) hfree hflow
  | release k i =>
    obtain ⟨c, hc, rfl⟩ := Option.map_eq_some_iff.mp ht
    obtain ⟨hi, rfl⟩ := List.getElem?_eq_some_iff.mp hc
    let d : Slave := { s.slaves k with detached := (s.slaves k).detached.eraseIdx i }
    have htable : d.worker.server.Table := h.table k
    have hflow : ∀ n, 0 < n → d.holds n + ((s.slaves k).detached[i]).destruct.count n =
        (s.slaves k).holds n + ([] : List Int).count n := by
      intro n hn
      have hperm := (List.getElem_cons_eraseIdx_perm hi).countP_eq (·.socket = n)
      rw [List.countP_cons] at hperm
      simp only [decide_eq_true_eq] at hperm
      simp only [d, Slave.holds, Slave.queued, Slave.owned, TcpSlaveServer.destruct_count hn,
        List.count_nil]
      omega
    have hi := h.setSlave htable (Or.inl rfl) (by simp) hflow
    simp only [List.append_nil] at hi
    exact hi
  | destroy k last =>
    obtain ⟨d, hd, rfl⟩ := Option.map_eq_some_iff.mp ht
    obtain ⟨htable, hflow⟩ := Slave.flow_of_destroy hd hk
    have hsame : ∀ n, 0 < n → d.holds n + ([] : List Int).count n =
        (s.slaves k).holds n + ([] : List Int).count n :=
      fun n hn => congrArg (· + _) (hflow n hn)
    have hi := h.setSlave htable (Or.inl rfl) (by simp) hsame
    simp only [List.append_nil] at hi
    exact hi

end Sockets

/-- In a run in which every conduit is made that a descriptor is meant for, no descriptor is 0,
no thread ends with descriptors in its list and none that spins takes them, every state
conserves the descriptors. -/
theorem descriptors_conserved {cfg : ServerCommonConfig} {es : List SocketEvent} {s : Sockets}
    (h : Transition.Always Sockets.step Sockets.Keeps es (Sockets.start cfg))
    (hs : Transition.run Sockets.step es (Sockets.start cfg) = some s) : s.Conserved := by
  have hinv : s.Inv := Transition.run_preserves_of (I := Sockets.Inv)
    (fun _ _ _ hi hk ht => hi.step hk ht) (Sockets.inv_start cfg) h hs
  exact hinv.conserved

theorem descriptor_closed_once : ∃ s, Transition.run Sockets.step
    [.worker 1 (.accepted 5), .worker 1 .takeOps, .worker 1 (.exec ⟨0, false, false, false⟩),
      .worker 0 (.accepted 6), .worker 1 (.forceClose 0), .worker 1 .takeOps,
      .worker 1 (.exec ⟨0, false, false, false⟩), .release 1 0]
    (Sockets.start (.ofType 5 1 8000)) = some s ∧ s.Conserved ∧ s.closed = [5] := by
  obtain ⟨s, hs, hclosed⟩ := Transition.exists_run Sockets.step
    [.worker 1 (.accepted 5), .worker 1 .takeOps, .worker 1 (.exec ⟨0, false, false, false⟩),
      .worker 0 (.accepted 6), .worker 1 (.forceClose 0), .worker 1 .takeOps,
      .worker 1 (.exec ⟨0, false, false, false⟩), .release 1 0]
    (Sockets.start (.ofType 5 1 8000)) (fun s => s.closed = [5]) (by decide)
  exact ⟨s, hs, descriptors_conserved (by decide) hs, hclosed⟩

/-- The conduit is not allocated, its constructor throws, the operation is left over, or the
thread spins since a restart that left slot 0 free. -/
theorem descriptor_leaks :
    (∃ s, Transition.run Sockets.step [.worker 0 (.accepted 5), .worker 0 .takeOps,
        .worker 0 (.exec ⟨0, true, false, false⟩)] (Sockets.start (.ofType 5 1 8000)) = some s ∧
      ¬ s.Conserved) ∧
    (∃ s, Transition.run Sockets.step [.worker 0 (.accepted 5), .worker 0 .takeOps,
        .worker 0 (.exec ⟨0, false, true, false⟩)] (Sockets.start (.ofType 5 1 8000)) = some s ∧
      ¬ s.Conserved) ∧
    (∃ s, Transition.run Sockets.step [.worker 0 (.accepted 5), .destroy 0 true]
        (Sockets.start (.ofType 5 1 8000)) = some s ∧ ¬ s.Conserved) ∧
    ∃ s, Transition.run Sockets.step [.worker 0 (.accepted 5), .worker 0 (.accepted 6),
        .worker 0 .takeOps, .worker 0 (.exec ⟨0, false, false, false⟩),
        .worker 0 (.exec ⟨0, false, false, false⟩), .worker 0 (.forceClose 0), .worker 0 .takeOps,
        .worker 0 (.exec ⟨0, false, false, false⟩), .destroy 0 false, .worker 0 (.accepted 7),
        .worker 0 .takeOps] (Sockets.start (.ofType 5 1 8000)) = some s ∧ ¬ s.Conserved :=
  ⟨Transition.exists_run Sockets.step _ _ (fun s => ¬ s.Conserved) (by decide),
    Transition.exists_run Sockets.step _ _ (fun s => ¬ s.Conserved) (by decide),
    Transition.exists_run Sockets.step _ _ (fun s => ¬ s.Conserved) (by decide),
    Transition.exists_run Sockets.step _ _ (fun s => ¬ s.Conserved) (by decide)⟩

end RgcFifa
