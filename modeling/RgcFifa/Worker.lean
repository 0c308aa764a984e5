import RgcFifa.SlotTable

/-! A running slave server. The master thread and the timer append to its operation
list, `onOpCheck` takes the whole list and works it off, and between any two of
these steps a conduit of the table may call `forceClose`. -/

namespace RgcFifa

open TcpSlaveServer (slotOf Accepted Installed Removed)

def TcpConduit.serverKey (c : TcpConduit) : Option Int :=
  match c.kind with
  | .gameClient => none
  | .clientConn ss => some ss

def OpStruct.target : OpStruct → Option ℕ
  | .accept _ => none
  | .remove id _ => some (slotOf id)

def TcpSlaveServer.onDisconnected (c : TcpConduit) (s : TcpSlaveServer) : TcpSlaveServer :=
  match c.kind with
  | .gameClient => s
  | .clientConn ss => s.lostConnection ss

def TcpSlaveServer.forceClose (c : TcpConduit) (s : TcpSlaveServer) : TcpSlaveServer :=
  (s.onDisconnected c).remove c.uid c.serial

/-- `rlist` is the rest of the batch that `onOpCheck` has taken. `closed` records
the conduits that have called `forceClose`; the source keeps no such record. -/
structure Worker where
  server : TcpSlaveServer
  rlist : List OpStruct
  closed : Finset ℕ

inductive WorkerEvent where
  | initConnection (key : UInt16)
  | accepted (sock : ℕ)
  | forceClose (i : ℕ)
  | takeOps
  | exec (a : Attempt)
  deriving DecidableEq, Repr

namespace Worker

def start (idx : Fin WORKERS) (cfg : ServerCommonConfig) : Worker :=
  ⟨TcpSlaveServer.start idx cfg, [], ∅⟩

abbrev slot (w : Worker) (i : ℕ) : Option TcpConduit := w.server.slot i

def pending (w : Worker) : List OpStruct := w.rlist ++ w.server.opList

/-- One operation of the batch, as `onOpCheck` dispatches it. -/
def execOp (a : Attempt) (w : Worker) : Option Worker :=
  match w.rlist with
  | [] => none
  | .accept ss :: ops => (w.server.doAccept a ss).map fun s => { w with server := s, rlist := ops }
  | .remove id _ :: ops => some { w with server := w.server.doRemove id, rlist := ops }

def step : WorkerEvent → Worker → Option Worker
  | .initConnection key, w => some { w with server := w.server.initConnection key.toNat }
  | .accepted sock, w => some { w with server := w.server.accepted sock }
  | .forceClose i, w => (w.slot i).map fun c =>
      { w with server := w.server.forceClose c, closed := insert c.serial w.closed }
  | .takeOps, w =>
      if w.rlist.isEmpty then
        some { w with server := { w.server with opList := [] }, rlist := w.server.opList }
      else none
  | .exec a, w => w.execOp a

def fills (e : WorkerEvent) (w : Worker) : Option (ℕ × TcpConduit) :=
  match e, w.rlist with
  | .exec a, .accept ss :: _ =>
      (w.server.construct a ss (w.server.nextSlot * WORKERS + w.server.slaveIdx)).map
        (w.server.nextSlot, ·)
  | _, _ => none

/-- What holds of the table of a running worker: conduits have distinct serials,
below the number built so far, and an outgoing connection has a positive key. -/
structure Inv (w : Worker) : Prop where
  table : w.server.SlotInv
  idx : w.server.slaveIdx < WORKERS
  serial : ∀ i c, w.slot i = some c → c.serial < w.server.built
  inj : ∀ i j c d, w.slot i = some c → w.slot j = some d → c.serial = d.serial → i = j
  key : ∀ i c s, w.slot i = some c → c.kind = .clientConn s → 1 ≤ s
  closed : ∀ n ∈ w.closed, n < w.server.built
  issuer : ∀ id issuer, .remove id issuer ∈ w.pending → issuer ∈ w.closed

theorem inv_start (idx : Fin WORKERS) (cfg : ServerCommonConfig) : (start idx cfg).Inv where
  table := TcpSlaveServer.slotInv_start idx cfg
  idx := idx.isLt
  serial := fun _ _ h => nomatch h
  inj := fun _ _ _ _ h => nomatch h
  key := fun _ _ _ h => nomatch h
  closed := fun _ h => nomatch h
  issuer := fun _ _ h => nomatch h

/-- How one step changes the table: not at all, by emptying a slot, or by filling
an empty one with a conduit that is new. -/
inductive SlotStep (s t : TcpSlaveServer) : Prop where
  | same (slot : ∀ i, t.slot i = s.slot i) (built : t.built = s.built)
  | emptied (k : ℕ) (slot : ∀ i, t.slot i = if i = k then none else s.slot i)
      (built : t.built = s.built)
  | filled (k : ℕ) (c : TcpConduit) (free : s.slot k = none) (serial : c.serial = s.built)
      (key : ∀ ss, c.kind = .clientConn ss → 1 ≤ ss)
      (slot : ∀ i, t.slot i = if i = k then some c else s.slot i) (built : t.built = s.built + 1)

theorem slotOf_uid {n idx : ℕ} (h : idx < WORKERS) : slotOf ((n : Int) * WORKERS + idx) = n := by
  have hW : (WORKERS : Int) = 2 := rfl
  have hi : idx < 2 := h
  have hq : ((n : Int) * 2 + idx).tdiv 2 = n := by
    rw [Int.tdiv_eq_ediv_of_nonneg (by omega)]
    omega
  simp only [slotOf, hW, hq]
  rw [if_neg (by omega)]
  exact Int.toNat_natCast n

variable {w w' : Worker}

theorem Inv.slotOf_uid (h : w.Inv) {i : ℕ} {c : TcpConduit} (hc : w.slot i = some c) :
    slotOf c.uid = i := by
  rw [h.table.uid i c hc]
  exact Worker.slotOf_uid h.idx

theorem execOp_cases (h : w.server.SlotInv) {a : Attempt} (hw : w.execOp a = some w') :
    (∃ ss ops, w.rlist = .accept ss :: ops ∧ w'.rlist = ops ∧ w'.closed = w.closed ∧
      Accepted a ss w.server w'.server) ∨
    ∃ id issuer ops, w.rlist = .remove id issuer :: ops ∧
      w' = { w with server := w.server.doRemove id, rlist := ops } := by
  unfold execOp at hw
  cases hr : w.rlist with
  | nil => simp [hr] at hw
  | cons op ops =>
    rw [hr] at hw
    cases op with
    | accept ss =>
      obtain ⟨t, ht, hcases⟩ := TcpSlaveServer.doAccept_cases a ss h
      simp only [ht, Option.map_some] at hw
      obtain rfl := Option.some.inj hw
      exact .inl ⟨ss, ops, rfl, rfl, rfl, hcases⟩
    | remove id issuer => exact .inr ⟨id, issuer, ops, rfl, (Option.some.inj hw).symm⟩

theorem fills_eq_some {e : WorkerEvent} {p : ℕ × TcpConduit} (h : fills e w = some p) :
    ∃ a ss ops, e = .exec a ∧ w.rlist = .accept ss :: ops ∧ p.1 = w.server.nextSlot ∧
      w.server.construct a ss (w.server.nextSlot * WORKERS + w.server.slaveIdx) = some p.2 := by
  cases e with
  | exec a =>
    cases hr : w.rlist with
    | nil => simp [fills, hr] at h
    | cons op ops =>
      cases op with
      | accept ss =>
        simp only [fills, hr, Option.map_eq_some_iff] at h
        obtain ⟨c, hc, rfl⟩ := h
        exact ⟨a, ss, ops, rfl, rfl, rfl, hc⟩
      | remove id issuer => simp [fills, hr] at h
  | initConnection key => exact nomatch h
  | accepted sock => exact nomatch h
  | forceClose i => exact nomatch h
  | takeOps => exact nomatch h

theorem fills_accept {a : Attempt} {ss : Int} {ops : List OpStruct} {c : TcpConduit}
    (hr : w.rlist = .accept ss :: ops) (hi : Installed a ss w.server w'.server c) :
    fills (.exec a) w = some (w.server.nextSlot, c) := by
  simp [fills, hr, hi.construct]

theorem accepted_slots {a : Attempt} {ss : Int} {s t : TcpSlaveServer} (h : s.SlotInv)
    (ht : Accepted a ss s t) : SlotStep s t := by
  rcases ht with ⟨_, rfl⟩ | ⟨c, hi⟩
  · rw [TcpSlaveServer.acceptFailed_eq]
    exact .same (fun _ => rfl) rfl
  · refine .filled s.nextSlot c h.tidy.next_isLeast.1 hi.serial ?_ hi.slot hi.built
    intro key hkey
    have hkind := (TcpSlaveServer.construct_eq hi.construct).2.2
    rw [hkey] at hkind
    split_ifs at hkind with hs
    injection hkind with hkind
    omega

theorem getElem?_insert_ne {m : Std.ExtTreeMap Int Int} {a b v : Int} (h : a ≠ b) :
    (m.insert a v)[b]? = m[b]? := by
  simp [Std.ExtTreeMap.getElem?_insert, h]

def SameTable (s t : TcpSlaveServer) : Prop :=
  t = { s with opList := t.opList, connUp := t.connUp, wire := t.wire }

inductive Stepped (w w' : Worker) : WorkerEvent → Prop where
  | idle {e : WorkerEvent} (table : SameTable w.server w'.server)
      (pending : w'.pending = w.pending) (connUp : w'.server.connUp = w.server.connUp)
      (closed : w'.closed = w.closed) : Stepped w w' e
  | connect (key : UInt16) (table : SameTable w.server w'.server)
      (down : ¬ w.server.isUp key.toNat)
      (pending : w'.pending = w.pending ++ [.accept (-key.toNat)])
      (connUp : w'.server.connUp = w.server.connUp.insert key.toNat 0)
      (closed : w'.closed = w.closed) : Stepped w w' (.initConnection key)
  | accepted (sock : ℕ) (table : SameTable w.server w'.server)
      (pending : w'.pending = w.pending ++ [.accept sock])
      (connUp : w'.server.connUp = w.server.connUp)
      (closed : w'.closed = w.closed) : Stepped w w' (.accepted sock)
  | forceClose (i : ℕ) (c : TcpConduit) (table : SameTable w.server w'.server)
      (slot : w.slot i = some c)
      (pending : w'.pending = w.pending ++ [.remove c.uid c.serial])
      (connUp : w'.server.connUp = (w.server.onDisconnected c).connUp)
      (closed : w'.closed = insert c.serial w.closed) : Stepped w w' (.forceClose i)
  | accept (a : Attempt) (ss : Int) (accepted : Accepted a ss w.server w'.server)
      (head : w.rlist = .accept ss :: w'.rlist)
      (pending : w.pending = .accept ss :: w'.pending)
      (closed : w'.closed = w.closed) : Stepped w w' (.exec a)
  | remove (a : Attempt) (id : Int) (issuer : ℕ) (removed : w'.server = w.server.doRemove id)
      (pending : w.pending = .remove id issuer :: w'.pending)
      (closed : w'.closed = w.closed) : Stepped w w' (.exec a)

theorem opList_doRemove {s : TcpSlaveServer} (h : s.SlotInv) (id : Int) :
    (s.doRemove id).opList = s.opList := by
  cases hc : s.slot (slotOf id) with
  | none => rw [TcpSlaveServer.doRemove_none hc]
  | some c => rw [(TcpSlaveServer.doRemove_some h hc).rest]

theorem opList_accepted {a : Attempt} {ss : Int} {s t : TcpSlaveServer}
    (ht : Accepted a ss s t) : t.opList = s.opList := by
  rcases ht with ⟨_, rfl⟩ | ⟨c, hi⟩
  · rw [TcpSlaveServer.acceptFailed_eq]
  · exact hi.opList

theorem step_cases (h : w.server.SlotInv) {e : WorkerEvent} (hw : step e w = some w') :
    Stepped w w' e := by
  cases e with
  | initConnection key =>
    obtain rfl := Option.some.inj hw
    by_cases hup : w.server.isUp key.toNat
    · have he : w.server.initConnection key.toNat = w.server := if_pos hup
      exact .idle (by rw [he]; rfl) (by simp [pending, he]) (by rw [he]) rfl
    · have he : w.server.initConnection key.toNat =
        { w.server with
          connUp := w.server.connUp.insert key.toNat 0
          opList := w.server.opList ++ [.accept (-key.toNat)] } := if_neg hup
      exact .connect key (by rw [he]; rfl) hup (by simp [pending, he]) (by rw [he]) rfl
  | accepted sock =>
    obtain rfl := Option.some.inj hw
    exact .accepted sock rfl (by simp [pending, TcpSlaveServer.accepted]) rfl rfl
  | forceClose i =>
    obtain ⟨c, hc, rfl⟩ := Option.map_eq_some_iff.mp hw
    have hd : SameTable w.server (w.server.onDisconnected c) ∧
        (w.server.onDisconnected c).opList = w.server.opList := by
      unfold TcpSlaveServer.onDisconnected
      cases c.kind <;> exact ⟨rfl, rfl⟩
    refine .forceClose i c ?_ hc ?_ rfl rfl
    · have hsame := hd.1
      simp only [SameTable, TcpSlaveServer.forceClose, TcpSlaveServer.remove] at hsame ⊢
      rw [hsame]
    · simp [pending, TcpSlaveServer.forceClose, TcpSlaveServer.remove, hd.2]
  | takeOps =>
    simp only [step] at hw
    split_ifs at hw with hr
    obtain rfl := Option.some.inj hw
    rw [List.isEmpty_iff] at hr
    exact .idle rfl (by simp [pending, hr]) rfl rfl
  | exec a =>
    rcases execOp_cases h hw with ⟨ss, ops, hr, hr', hcl, ht⟩ | ⟨id, issuer, ops, hr, rfl⟩
    · exact .accept a ss ht (by rw [hr, hr']) (by simp [pending, hr, hr', opList_accepted ht]) hcl
    · exact .remove a id issuer rfl (by simp [pending, hr, opList_doRemove h]) rfl

theorem SameTable.slot {s t : TcpSlaveServer} (h : SameTable s t) (i : ℕ) : t.slot i = s.slot i := by
  rw [h]

theorem SameTable.slots {s t : TcpSlaveServer} (h : SameTable s t) : SlotStep s t := by
  rw [h]
  exact .same (fun _ => rfl) rfl

theorem SameTable.table {s t : TcpSlaveServer} (h : SameTable s t) (hs : s.SlotInv) :
    t.SlotInv ∧ t.slaveIdx = s.slaveIdx := by
  rw [h]
  exact ⟨⟨hs.tidy, hs.count, hs.uid⟩, rfl⟩

theorem Stepped.slots {e : WorkerEvent} (h : w.server.SlotInv) (hs : Stepped w w' e) :
    SlotStep w.server w'.server := by
  cases hs with
  | idle table => exact table.slots
  | connect key table => exact table.slots
  | accepted sock table => exact table.slots
  | forceClose i c table => exact table.slots
  | accept a ss ht => exact accepted_slots h ht
  | remove a id issuer hr =>
    rw [hr]
    cases hc : w.slot (slotOf id) with
    | none =>
      rw [TcpSlaveServer.doRemove_none hc]
      exact .same (fun _ => rfl) rfl
    | some c =>
      have hrem := TcpSlaveServer.doRemove_some h hc
      exact .emptied (slotOf id) hrem.slot (by rw [hrem.rest])

theorem Stepped.table {e : WorkerEvent} (h : w.server.SlotInv) (hs : Stepped w w' e) :
    w'.server.SlotInv ∧ w'.server.slaveIdx = w.server.slaveIdx := by
  cases hs with
  | idle table => exact table.table h
  | connect key table => exact table.table h
  | accepted sock table => exact table.table h
  | forceClose i c table => exact table.table h
  | accept a ss ht =>
    rcases ht with ⟨_, ht⟩ | ⟨c, hi⟩
    · rw [ht]
      exact ⟨h.acceptFailed ss, by rw [TcpSlaveServer.acceptFailed_eq]⟩
    · exact ⟨h.installed hi, hi.slaveIdx⟩
  | remove a id issuer hr =>
    rw [hr]
    exact ⟨h.doRemove id, TcpSlaveServer.slaveIdx_doRemove h id⟩

theorem Stepped.pending_remove {e : WorkerEvent} (hs : Stepped w w' e) {id : Int} {issuer : ℕ}
    (hm : .remove id issuer ∈ w'.pending) :
    .remove id issuer ∈ w.pending ∨
      ∃ i c, w.slot i = some c ∧ c.uid = id ∧ c.serial = issuer ∧ issuer ∈ w'.closed := by
  cases hs with
  | idle _ hp => rw [hp] at hm; exact .inl hm
  | connect key _ _ hp => rw [hp] at hm; exact .inl (by simpa using hm)
  | accepted sock _ hp => rw [hp] at hm; exact .inl (by simpa using hm)
  | forceClose i c _ hc hp _ hcl =>
    rw [hp] at hm
    rcases List.mem_append.mp hm with hm | hm
    · exact .inl hm
    · obtain ⟨rfl, rfl⟩ := OpStruct.remove.inj (List.mem_singleton.mp hm)
      exact .inr ⟨i, c, hc, rfl, rfl, by rw [hcl]; exact Finset.mem_insert_self _ _⟩
  | accept a ss _ _ hp => rw [hp]; exact .inl (List.mem_cons_of_mem _ hm)
  | remove a id' issuer' _ hp => rw [hp]; exact .inl (List.mem_cons_of_mem _ hm)

theorem Stepped.closed_mono {e : WorkerEvent} (hs : Stepped w w' e) : w.closed ⊆ w'.closed := by
  cases hs with
  | idle _ _ _ hcl => rw [hcl]
  | connect key _ _ _ _ hcl => rw [hcl]
  | accepted sock _ _ _ hcl => rw [hcl]
  | forceClose i c _ _ _ _ hcl => rw [hcl]; exact Finset.subset_insert _ _
  | accept a ss _ _ _ hcl => rw [hcl]
  | remove a id issuer _ _ hcl => rw [hcl]

theorem Stepped.closed_lt {e : WorkerEvent} (hs : Stepped w w' e) (h : w.Inv) {n : ℕ}
    (hn : n ∈ w'.closed) : n < w.server.built := by
  cases hs with
  | idle _ _ _ hcl => rw [hcl] at hn; exact h.closed n hn
  | connect key _ _ _ _ hcl => rw [hcl] at hn; exact h.closed n hn
  | accepted sock _ _ _ hcl => rw [hcl] at hn; exact h.closed n hn
  | forceClose i c _ hc _ _ hcl =>
    rw [hcl] at hn
    rcases Finset.mem_insert.mp hn with rfl | hn
    · exact h.serial i c hc
    · exact h.closed n hn
  | accept a ss _ _ _ hcl => rw [hcl] at hn; exact h.closed n hn
  | remove a id issuer _ _ hcl => rw [hcl] at hn; exact h.closed n hn

theorem SlotStep.built_le {s t : TcpSlaveServer} (h : SlotStep s t) : s.built ≤ t.built := by
  cases h with
  | same _ hb => rw [hb]
  | emptied _ _ hb => rw [hb]
  | filled _ _ _ _ _ _ hb => omega

theorem SlotStep.occupant {s t : TcpSlaveServer} (h : SlotStep s t) {i : ℕ} {c : TcpConduit}
    (hc : t.slot i = some c) :
    s.slot i = some c ∨ (s.slot i = none ∧ c.serial = s.built ∧ t.built = s.built + 1 ∧
      (∀ ss, c.kind = .clientConn ss → 1 ≤ ss) ∧ ∀ j, j ≠ i → t.slot j = s.slot j) := by
  cases h with
  | same hslot _ => rw [hslot] at hc; exact .inl hc
  | emptied k hslot _ =>
    rw [hslot] at hc
    split_ifs at hc
    exact .inl hc
  | filled k d hfree hser hkey hslot hb =>
    have hc' := hc
    rw [hslot] at hc
    split_ifs at hc with hik
    · obtain rfl := Option.some.inj hc
      subst hik
      exact .inr ⟨hfree, hser, hb, hkey, fun j hj => by rw [hslot, if_neg hj]⟩
    · exact .inl hc

theorem Stepped.fills_of_new {e : WorkerEvent} (h : w.Inv) (hs : Stepped w w' e) {i : ℕ}
    {c : TcpConduit} (hnone : w.slot i = none) (hc : w'.slot i = some c) :
    fills e w = some (i, c) := by
  have hsame (ht : SameTable w.server w'.server) : fills e w = some (i, c) := by
    have hc' : w.slot i = some c := (ht.slot i).symm.trans hc
    exact nomatch hnone.symm.trans hc'
  cases hs with
  | idle table => exact hsame table
  | connect key table => exact hsame table
  | accepted sock table => exact hsame table
  | forceClose j d table => exact hsame table
  | accept a ss ht head =>
    rcases ht with ⟨_, ht⟩ | ⟨d, hi⟩
    · exact hsame (by rw [ht, TcpSlaveServer.acceptFailed_eq]; rfl)
    · have hslot := hc.symm.trans (hi.slot i)
      split_ifs at hslot with hik
      · rw [fills_accept head hi, Option.some.inj hslot, hik]
      · exact nomatch hnone.symm.trans hslot.symm
  | remove a id issuer hr =>
    rw [slot, hr] at hc
    cases hd : w.slot (slotOf id) with
    | none =>
      rw [TcpSlaveServer.doRemove_none hd] at hc
      exact nomatch hnone.symm.trans hc
    | some d =>
      rw [(TcpSlaveServer.doRemove_some h.table hd).slot] at hc
      split_ifs at hc
      exact nomatch hnone.symm.trans hc

/-- A pending removal and the conduit in the slot it names, after a step: both were
there before, the conduit queued the removal in this step, or it was put into the slot. -/
theorem Stepped.removal_cases {e : WorkerEvent} (h : w.Inv) (hs : Stepped w w' e) {id : Int}
    {issuer : ℕ} {c : TcpConduit} (hm : .remove id issuer ∈ w'.pending)
    (hc : w'.slot (slotOf id) = some c) :
    (.remove id issuer ∈ w.pending ∧ w.slot (slotOf id) = some c) ∨
    (c.serial = issuer ∧ issuer ∈ w'.closed) ∨
    (.remove id issuer ∈ w.pending ∧ fills e w = some (slotOf id, c)) := by
  rcases hs.pending_remove hm with hm | ⟨i, d, hd, rfl, rfl, hcl⟩
  · rcases (hs.slots h.table).occupant hc with hc' | ⟨hnone, _⟩
    · exact .inl ⟨hm, hc'⟩
    · exact .inr (.inr ⟨hm, hs.fills_of_new h hnone hc⟩)
  · rw [h.slotOf_uid hd] at hc
    rcases (hs.slots h.table).occupant hc with hc' | ⟨hnone, _⟩
    · rw [Option.some.inj (hc'.symm.trans hd)]
      exact .inr (.inl ⟨rfl, hcl⟩)
    · exact nomatch hd.symm.trans hnone

theorem Inv.step (h : w.Inv) {e : WorkerEvent} (hw : step e w = some w') : w'.Inv := by
  have hs := step_cases h.table hw
  have hslots := hs.slots h.table
  obtain ⟨htable, hidx⟩ := hs.table h.table
  have hbuilt := hslots.built_le
  constructor
  · exact htable
  · rw [hidx]; exact h.idx
  · intro i c hc
    rcases hslots.occupant hc with hc | ⟨_, hser, hb, _⟩
    · have := h.serial i c hc
      omega
    · omega
  · intro i j c d hc hd he
    rcases hslots.occupant hc with hc' | ⟨_, hser, _, _, hrest⟩
    · rcases hslots.occupant hd with hd' | ⟨_, hser, _, _, hrest⟩
      · exact h.inj i j c d hc' hd' he
      · have := h.serial i c hc'
        omega
    · by_contra hij
      have hd' : w.slot j = some d := (hrest j (Ne.symm hij)).symm.trans hd
      have := h.serial j d hd'
      omega
  · intro i c s hc hk
    rcases hslots.occupant hc with hc | ⟨_, _, _, hkey, _⟩
    · exact h.key i c s hc hk
    · exact hkey s hk
  · intro n hn
    exact lt_of_lt_of_le (hs.closed_lt h hn) hbuilt
  · intro id issuer hm
    rcases hs.pending_remove hm with hm | ⟨_, _, _, _, _, hcl⟩
    · exact hs.closed_mono (h.issuer id issuer hm)
    · exact hcl

theorem inv_run {es : List WorkerEvent} (h : w.Inv) (hw : Transition.run step es w = some w') :
    w'.Inv :=
  Transition.run_preserves (fun _ _ _ hi ht => hi.step ht) h hw

end Worker

end RgcFifa
