import RgcFifa.TcpServer

/-! The slot table of a slave server stays tidy through every order of accepts
and removals, and refines a partial map from slots to conduits. -/

namespace RgcFifa

namespace TcpSlaveServer

abbrev nextSlot (s : TcpSlaveServer) : ℕ := Slots.next s.conduits s.emptySet

structure SlotInv (s : TcpSlaveServer) : Prop where
  tidy : Slots.Tidy s.conduits s.emptySet
  count : s.count = Slots.live s.conduits
  uid : ∀ i c, s.slot i = some c → c.uid = i * WORKERS + s.slaveIdx

theorem slotInv_start (idx : ℕ) (cfg : ServerCommonConfig) : (start idx cfg).SlotInv :=
  ⟨Slots.tidy_nil, rfl, fun _ _ h => nomatch h⟩

structure Installed (a : Attempt) (ss : Int) (s t : TcpSlaveServer) (c : TcpConduit) : Prop where
  construct : s.construct a ss (s.nextSlot * WORKERS + s.slaveIdx) = some c
  tidy : Slots.Tidy t.conduits t.emptySet
  live : Slots.live t.conduits = Slots.live s.conduits + 1
  count : t.count = s.count + 1
  slot : ∀ i, t.slot i = if i = s.nextSlot then some c else s.slot i
  connUp : t.connUp = if ss < 0 then s.connUp.insert (-ss) c.uid else s.connUp
  wire : t.wire = if ss < 0 then s.wire ++ [(c.serial, registerFrame (-ss) s.serverCfg)] else s.wire
  built : t.built = s.built + 1
  opList : t.opList = s.opList
  slaveIdx : t.slaveIdx = s.slaveIdx
  serverCfg : t.serverCfg = s.serverCfg

theorem make_made {a : Attempt} {c d : TcpConduit} (h : make a c = .made d) : d = c := by
  unfold make at h
  split_ifs at h
  exact (Made.made.inj h).symm

theorem newConnection_made {a : Attempt} {ss uid : Int} {s : TcpSlaveServer} {c : TcpConduit}
    (h : s.newConnection a ss uid = .made c) :
    c = ⟨.clientConn (-ss), a.sock, uid, s.built⟩ := by
  unfold newConnection at h
  split_ifs at h
  exact make_made h

theorem construct_eq {a : Attempt} {ss uid : Int} {s : TcpSlaveServer} {c : TcpConduit}
    (h : s.construct a ss uid = some c) :
    c.uid = uid ∧ c.serial = s.built ∧
      c.kind = if ss < 0 then .clientConn (-ss) else .gameClient := by
  by_cases hs : ss < 0
  · rw [construct, if_pos hs] at h
    cases hm : s.newConnection a ss uid with
    | null => simp [hm] at h
    | throws => simp [hm] at h
    | made d =>
      rw [hm] at h
      have hd : d = c := by
        dsimp only at h
        split_ifs at h
        exact Option.some.inj h
      rw [← hd, newConnection_made hm, if_pos hs]
      exact ⟨rfl, rfl, rfl⟩
  · rw [construct, if_neg hs] at h
    cases hm : s.newConduit a ss uid with
    | null => simp [hm] at h
    | throws => simp [hm] at h
    | made d =>
      rw [hm] at h
      rw [← Option.some.inj h, make_made hm, if_neg hs]
      exact ⟨rfl, rfl, rfl⟩

/-- An attempt is made good unless something fails in it. -/
theorem construct_isSome (a : Attempt) (ss uid : Int) (s : TcpSlaveServer) :
    (s.construct a ss uid).isSome ↔ a.allocFails = false ∧ a.ctorThrows = false ∧
      (ss < 0 → a.connectThrows = false ∧ 0 ≤ a.sock ∧
        0 < s.serverCfg.getPortFromConnectMap (UInt16.ofInt (-ss))) := by
  by_cases hs : ss < 0
  · rw [construct, if_pos hs, newConnection, if_pos hs]
    generalize s.serverCfg.getPortFromConnectMap (UInt16.ofInt (-ss)) = port
    by_cases hport : port ≤ 0
    · rw [if_pos hport]
      exact iff_of_false (by simp) fun h => absurd (h.2.2 hs).2.2 (UInt16.not_lt.mpr hport)
    · by_cases hsock : a.sock < 0
      · rw [if_neg hport, if_pos hsock]
        exact iff_of_false (by simp) fun h => absurd (h.2.2 hs).2.1 (not_le.mpr hsock)
      · have hgood : ss < 0 → (a.connectThrows = false ∧ 0 ≤ a.sock ∧ 0 < port ↔ a.connectThrows = false) := by
          intro _
          rw [and_iff_left ⟨not_lt.mp hsock, UInt16.not_le.mp hport⟩]
        rw [if_neg hport, if_neg hsock, make, forall_congr' hgood]
        cases a.allocFails <;> cases a.ctorThrows <;> cases a.connectThrows <;> simp [hs]
  · rw [construct, if_neg hs, newConduit, make]
    cases a.allocFails <;> cases a.ctorThrows <;> simp [hs]

theorem Installed.uid {a : Attempt} {ss : Int} {s t : TcpSlaveServer} {c : TcpConduit}
    (h : Installed a ss s t c) : c.uid = s.nextSlot * WORKERS + s.slaveIdx :=
  (construct_eq h.construct).1

theorem Installed.serial {a : Attempt} {ss : Int} {s t : TcpSlaveServer} {c : TcpConduit}
    (h : Installed a ss s t c) : c.serial = s.built :=
  (construct_eq h.construct).2.1

theorem started_conduits (ss : Int) (c : TcpConduit) (s : TcpSlaveServer) :
    s.started ss c = { s with wire := if ss < 0 then
      s.wire ++ [(c.serial, registerFrame (-ss) s.serverCfg)] else s.wire } := by
  unfold started
  split_ifs <;> rfl

/-- The two ways `_accepted` ends on a tidy table. -/
def Accepted (a : Attempt) (ss : Int) (s t : TcpSlaveServer) : Prop :=
  (s.construct a ss (s.nextSlot * WORKERS + s.slaveIdx) = none ∧ t = s.acceptFailed ss) ∨
    ∃ c, Installed a ss s t c

theorem acceptReuse_cases (a : Attempt) (ss : Int) {s : TcpSlaveServer} (h : s.SlotInv)
    (hne : s.emptySet.Nonempty) : Accepted a ss s (s.acceptReuse a ss s.nextSlot) := by
  have hmem : s.nextSlot ∈ s.emptySet := Slots.next_mem hne
  have hnone := (h.tidy.mem_free _).mp hmem
  cases hc : s.construct a ss (s.nextSlot * WORKERS + s.slaveIdx) with
  | none => exact .inl ⟨hc, by simp [acceptReuse, hc]⟩
  | some c =>
    refine .inr ⟨c, ?_⟩
    have huid : c.uid = s.nextSlot * WORKERS + s.slaveIdx := (construct_eq hc).1
    simp only [acceptReuse, hc, started_conduits]
    exact {
      construct := hc
      tidy := h.tidy.put hmem c
      live := Slots.live_set_some hnone c
      count := rfl
      slot := Slots.slot_set (h.tidy.lt_length hmem) (some c)
      connUp := by rw [huid]
      wire := rfl
      built := rfl
      opList := rfl
      slaveIdx := rfl
      serverCfg := rfl }

theorem acceptAppend_cases (a : Attempt) (ss : Int) {s : TcpSlaveServer} (h : s.SlotInv)
    (he : s.emptySet = ∅) : Accepted a ss s (s.acceptAppend a ss) := by
  have hnext : s.nextSlot = s.conduits.length := Slots.next_eq_length he
  cases hc : s.construct a ss (s.conduits.length * WORKERS + s.slaveIdx) with
  | none => exact .inl ⟨by rw [hnext]; exact hc, by simp [acceptAppend, hc]⟩
  | some c =>
    refine .inr ⟨c, ?_⟩
    have huid : c.uid = s.conduits.length * WORKERS + s.slaveIdx := (construct_eq hc).1
    have htidy := h.tidy
    rw [he] at htidy
    simp only [acceptAppend, hc, started_conduits]
    exact {
      construct := by rw [hnext]; exact hc
      tidy := by rw [he]; exact htidy.push c
      live := Slots.live_push s.conduits c
      count := rfl
      slot := by rw [hnext]; exact Slots.slot_push s.conduits c
      connUp := by rw [huid]
      wire := rfl
      built := rfl
      opList := rfl
      slaveIdx := rfl
      serverCfg := rfl }

theorem acceptLoop_tidy (a : Attempt) (ss : Int) {s : TcpSlaveServer} (h : s.SlotInv) (fuel : ℕ) :
    s.acceptLoop a ss (fuel + 1) = some (if s.emptySet.Nonempty then s.acceptReuse a ss s.nextSlot
      else s.acceptAppend a ss) := by
  by_cases hne : s.emptySet.Nonempty
  · have hnext : s.emptySet.min' hne = s.nextSlot := by simp [nextSlot, Slots.next, hne]
    have hlt : s.nextSlot < s.conduits.length := h.tidy.lt_length (Slots.next_mem hne)
    simp only [acceptLoop, hne, dite_true, hnext, hlt, if_true]
  · simp only [acceptLoop, hne, dite_false, if_false]

theorem doAccept_cases (a : Attempt) (ss : Int) {s : TcpSlaveServer} (h : s.SlotInv) :
    ∃ t, s.doAccept a ss = some t ∧ Accepted a ss s t := by
  refine ⟨_, acceptLoop_tidy a ss h _, ?_⟩
  split_ifs with hne
  · exact acceptReuse_cases a ss h hne
  · exact acceptAppend_cases a ss h (Finset.not_nonempty_iff_eq_empty.mp hne)

theorem acceptFailed_eq (ss : Int) (s : TcpSlaveServer) :
    s.acceptFailed ss =
      { s with connUp := if ss < 0 then s.connUp.insert (-ss) (-1) else s.connUp } := by
  unfold acceptFailed
  split_ifs <;> rfl

theorem SlotInv.installed {a : Attempt} {ss : Int} {s t : TcpSlaveServer} {c : TcpConduit}
    (h : s.SlotInv) (hi : Installed a ss s t c) : t.SlotInv where
  tidy := hi.tidy
  count := by rw [hi.count, hi.live, h.count]
  uid := by
    intro i d hd
    rw [hi.slot] at hd
    rw [hi.slaveIdx]
    split_ifs at hd with he
    · rw [← Option.some.inj hd, hi.uid, he]
    · exact h.uid i d hd

theorem SlotInv.acceptFailed {s : TcpSlaveServer} (h : s.SlotInv) (ss : Int) :
    (s.acceptFailed ss).SlotInv := by
  rw [acceptFailed_eq]
  exact ⟨h.tidy, h.count, h.uid⟩

theorem trimLoop_spec (l : List (Option TcpConduit)) (n : ℕ) (free : Finset ℕ) :
    (trimLoop l n free).1 ≤ n ∧
    (∀ i, (trimLoop l n free).1 ≤ i → i < n → Slots.slot l i = none) ∧
    ((trimLoop l n free).1 = 0 ∨ ∃ c, Slots.slot l ((trimLoop l n free).1 - 1) = some c) ∧
    ∀ j, j ∈ (trimLoop l n free).2 ↔ j ∈ free ∧ ¬ ((trimLoop l n free).1 ≤ j ∧ j ≤ n) := by
  have herase (m : ℕ) (e : Finset ℕ) (j : ℕ) :
      j ∈ (if e.Nonempty then e.erase m else e) ↔ j ∈ e ∧ j ≠ m := by
    by_cases he : e.Nonempty
    · simp [he, and_comm]
    · simp [Finset.not_nonempty_iff_eq_empty.mp he]
  induction n generalizing free with
  | zero =>
    refine ⟨le_rfl, by omega, .inl rfl, fun j => ?_⟩
    rw [trimLoop, herase]
    simp
  | succ n ih =>
    by_cases hn : Slots.slot l n = none
    · obtain ⟨hle, hnone, hlast, hfree⟩ := ih (if free.Nonempty then free.erase (n + 1) else free)
      rw [trimLoop, if_pos hn]
      refine ⟨by omega, ?_, hlast, ?_⟩
      · intro i hi hlt
        by_cases he : i = n
        · rw [he]; exact hn
        · exact hnone i hi (by omega)
      · intro j
        rw [hfree, herase]
        constructor
        · rintro ⟨⟨hj, hne⟩, hh⟩
          exact ⟨hj, by omega⟩
        · rintro ⟨hj, hh⟩
          exact ⟨⟨hj, by omega⟩, by omega⟩
    · rw [trimLoop, if_neg hn]
      refine ⟨le_rfl, by omega, .inr (Option.ne_none_iff_exists'.mp hn), fun j => ?_⟩
      rw [herase]
      constructor
      · rintro ⟨hj, hne⟩
        exact ⟨hj, by omega⟩
      · rintro ⟨hj, hh⟩
        exact ⟨hj, by omega⟩

structure Removed (rid : ℕ) (s t : TcpSlaveServer) : Prop where
  tidy : Slots.Tidy t.conduits t.emptySet
  live : Slots.live t.conduits + 1 = Slots.live s.conduits
  slot : ∀ i, t.slot i = if i = rid then none else s.slot i
  rest : t = { s with conduits := t.conduits, emptySet := t.emptySet, count := s.count - 1 }

theorem doRemove_none {id : Int} {s : TcpSlaveServer} (h : s.slot (slotOf id) = none) :
    s.doRemove id = s := by
  rw [doRemove, if_neg (fun hh => hh.2 h)]

theorem doRemove_some {id : Int} {s : TcpSlaveServer} {c : TcpConduit} (h : s.SlotInv)
    (hc : s.slot (slotOf id) = some c) : Removed (slotOf id) s (s.doRemove id) := by
  have hlt := Slots.slot_lt hc
  have hlive := Slots.live_set_none hc
  have hcount : (if s.count > 0 then s.count - 1 else s.count) = s.count - 1 := by
    split_ifs <;> omega
  have hset (i : ℕ) := Slots.slot_set hlt none i
  rw [doRemove, if_pos ⟨hlt, by simp [hc]⟩]
  simp only [hcount, List.length_set]
  by_cases hl : slotOf id = s.conduits.length - 1
  · obtain ⟨hle, hnone, hlast, hfree⟩ :=
      trimLoop_spec (s.conduits.set (slotOf id) none) (slotOf id) s.emptySet
    have hempty : ∀ i, (trimLoop (s.conduits.set (slotOf id) none) (slotOf id) s.emptySet).1 ≤ i →
        Slots.slot (s.conduits.set (slotOf id) none) i = none := by
      intro i hi
      rcases lt_trichotomy i (slotOf id) with hlt' | he | hgt
      · exact hnone i hi hlt'
      · rw [hset, if_pos he]
      · rw [hset, if_neg hgt.ne']
        exact Slots.slot_eq_none.mpr (.inl (by omega))
    rw [if_pos hl]
    exact {
      tidy := by
        rw [hl] at hle hlast hfree ⊢
        refine h.tidy.trim (by omega) (fun j => ?_) ?_
        · rw [hfree]
          refine and_congr_right fun hj => ?_
          have := h.tidy.lt_length hj
          omega
        · rcases hlast with h0 | ⟨d, hd⟩
          · exact .inl h0
          · refine .inr ⟨d, ?_⟩
            rw [Slots.slot_set (by omega)] at hd
            split_ifs at hd
            exact hd
      live := by
        rw [← hlive]
        exact congrArg (· + 1) (Slots.live_take hempty)
      slot := fun i => (Slots.slot_take hempty i).trans (hset i)
      rest := rfl }
  · rw [if_neg hl]
    exact {
      tidy := h.tidy.clear (by omega)
      live := hlive
      slot := hset
      rest := rfl }

theorem SlotInv.removed {rid : ℕ} {s t : TcpSlaveServer} (h : s.SlotInv) (hr : Removed rid s t) :
    t.SlotInv where
  tidy := hr.tidy
  count := by
    have hcount : t.count = s.count - 1 := by rw [hr.rest]
    have hlive := hr.live
    rw [hcount, h.count]
    omega
  uid := by
    intro i c hc
    have hidx : t.slaveIdx = s.slaveIdx := by rw [hr.rest]
    rw [hr.slot] at hc
    split_ifs at hc
    rw [hidx]
    exact h.uid i c hc

theorem SlotInv.doRemove {s : TcpSlaveServer} (h : s.SlotInv) (id : Int) :
    (s.doRemove id).SlotInv := by
  cases hc : s.slot (slotOf id) with
  | none => rwa [doRemove_none hc]
  | some c => exact h.removed (doRemove_some h hc)

theorem SlotInv.doAccept {s t : TcpSlaveServer} (h : s.SlotInv) {a : Attempt} {ss : Int}
    (ht : s.doAccept a ss = some t) : t.SlotInv := by
  obtain ⟨u, hu, hcases⟩ := doAccept_cases a ss h
  obtain rfl : u = t := Option.some.inj (hu.symm.trans ht)
  rcases hcases with ⟨_, rfl⟩ | ⟨c, hi⟩
  · exact h.acceptFailed ss
  · exact h.installed hi

theorem slaveIdx_doRemove {s : TcpSlaveServer} (h : s.SlotInv) (id : Int) :
    (s.doRemove id).slaveIdx = s.slaveIdx := by
  cases hc : s.slot (slotOf id) with
  | none => rw [doRemove_none hc]
  | some c => rw [(doRemove_some h hc).rest]

theorem slaveIdx_doAccept {s t : TcpSlaveServer} (h : s.SlotInv) {a : Attempt} {ss : Int}
    (ht : s.doAccept a ss = some t) : t.slaveIdx = s.slaveIdx := by
  obtain ⟨u, hu, hcases⟩ := doAccept_cases a ss h
  obtain rfl : u = t := Option.some.inj (hu.symm.trans ht)
  rcases hcases with ⟨_, rfl⟩ | ⟨c, hi⟩
  · rw [acceptFailed_eq]
  · exact hi.slaveIdx

end TcpSlaveServer

inductive TableOp where
  | accepted (a : Attempt) (ss : Int)
  | remove (id : Int)

def tableStep : TableOp → TcpSlaveServer → Option TcpSlaveServer
  | .accepted a ss, s => s.doAccept a ss
  | .remove id, s => some (s.doRemove id)

theorem tableStep_enabled (op : TableOp) {s : TcpSlaveServer} (h : s.SlotInv) :
    ∃ t, tableStep op s = some t ∧ t.SlotInv ∧ t.slaveIdx = s.slaveIdx := by
  cases op with
  | accepted a ss =>
    obtain ⟨t, ht, _⟩ := TcpSlaveServer.doAccept_cases a ss h
    exact ⟨t, ht, h.doAccept ht, TcpSlaveServer.slaveIdx_doAccept h ht⟩
  | remove id => exact ⟨_, rfl, h.doRemove id, TcpSlaveServer.slaveIdx_doRemove h id⟩

theorem tableRun_slotInv (ops : List TableOp) {s : TcpSlaveServer} (h : s.SlotInv) :
    ∃ t, Transition.run tableStep ops s = some t ∧ t.SlotInv ∧ t.slaveIdx = s.slaveIdx := by
  induction ops generalizing s with
  | nil => exact ⟨s, rfl, h, rfl⟩
  | cons op ops ih =>
    obtain ⟨u, hu, hinv, hidx⟩ := tableStep_enabled op h
    obtain ⟨t, ht, hinv', hidx'⟩ := ih hinv
    exact ⟨t, Transition.run_cons.mpr ⟨u, hu, ht⟩, hinv', hidx'.trans hidx⟩

theorem slot_table_invariant (idx : ℕ) (cfg : ServerCommonConfig) (ops : List TableOp) :
    ∃ s, Transition.run tableStep ops (TcpSlaveServer.start idx cfg) = some s ∧
      (∀ id, id ∈ s.emptySet ↔ id < s.conduits.length ∧ s.conduits[id]? = some none) ∧
      (∀ h : s.conduits ≠ [], s.conduits.getLast h ≠ none) ∧
      s.count = s.conduits.countP Option.isSome ∧
      (∀ (i : ℕ) (c : TcpConduit), s.conduits[i]? = some (some c) → c.uid = i * WORKERS + idx) ∧
      (∀ a ss, ∃ (t : TcpSlaveServer) (i : ℕ), s.doAccept a ss = some t ∧ IsLeast {j | s.slot j = none} i ∧
        match s.construct a ss (i * WORKERS + idx) with
        | none => t.conduits = s.conduits ∧ t.emptySet = s.emptySet ∧ t.count = s.count
        | some c => (∀ j, t.slot j = if j = i then some c else s.slot j) ∧
            t.count = s.count + 1) ∧
      ∀ a ss uid, (s.construct a ss uid).isSome ↔ a.allocFails = false ∧ a.ctorThrows = false ∧
        (ss < 0 → a.connectThrows = false ∧ 0 ≤ a.sock ∧
          0 < s.serverCfg.getPortFromConnectMap (UInt16.ofInt (-ss))) := by
  obtain ⟨s, hs, hinv, hidx⟩ := tableRun_slotInv ops (TcpSlaveServer.slotInv_start idx cfg)
  change s.slaveIdx = idx at hidx
  refine ⟨s, hs, ?_, ?_, hinv.count, ?_, ?_, fun a ss uid => TcpSlaveServer.construct_isSome a ss uid s⟩
  · intro id
    refine ⟨fun hid => ⟨hinv.tidy.lt_length hid, (hinv.tidy.mem_free id).mp hid⟩, ?_⟩
    rintro ⟨_, hid⟩
    exact (hinv.tidy.mem_free id).mpr hid
  · intro hne hlast
    exact hinv.tidy.last (by rw [List.getLast?_eq_getLast_of_ne_nil hne, hlast])
  · intro i c hc
    rw [← hidx]
    exact hinv.uid i c (Slots.slot_eq_some.mpr hc)
  · intro a ss
    obtain ⟨t, ht, hcases⟩ := TcpSlaveServer.doAccept_cases a ss hinv
    refine ⟨t, s.nextSlot, ht, hinv.tidy.next_isLeast, ?_⟩
    rw [← hidx]
    rcases hcases with ⟨hnone, rfl⟩ | ⟨c, hi⟩
    · rw [hnone, TcpSlaveServer.acceptFailed_eq]
      exact ⟨rfl, rfl, rfl⟩
    · rw [hi.construct]
      exact ⟨hi.slot, hi.count⟩

end RgcFifa
