import RgcFifa.Worker

/-! How `on_server_read` spreads the sockets that it accepts. It compares the counts of the
workers one after the other, and a worker counts a connection only when it works off its list. -/

namespace RgcFifa

/-- Connections and queued sockets together. -/
def Worker.load (w : Worker) : ℕ := w.server.count + w.pending.length

/-- The variables of `on_server_read` between `accept()` and `accepted`. -/
structure Choice where
  sock : ℕ
  min_cap : ℕ
  idx : Fin WORKERS
  i : ℕ

structure Acceptor where
  workers : Fin WORKERS → Worker
  choice : Option Choice

/-- Nothing disconnects and no call fails. -/
inductive AcceptEvent where
  | accept (sock : ℕ)
  | getCount
  | accepted
  | takeOps (k : Fin WORKERS)
  | exec (k : Fin WORKERS)
  deriving DecidableEq

/-- The first of the indices where `f` is least. -/
def FirstLeast {n : ℕ} (f : Fin n → ℕ) (k : Fin n) : Prop :=
  (∀ j < k, f k < f j) ∧ ∀ j, f k ≤ f j

theorem FirstLeast.unique {n : ℕ} {f : Fin n → ℕ} {j k : Fin n} (hj : FirstLeast f j)
    (hk : FirstLeast f k) : j = k := by
  rcases lt_trichotomy j k with hlt | heq | hlt
  · exact absurd (hj.2 k) (not_le.mpr (hk.1 j hlt))
  · exact heq
  · exact absurd (hk.2 j) (not_le.mpr (hj.1 k hlt))

/-- The steps of `onOpCheck`. -/
def AcceptEvent.drains : AcceptEvent → Bool
  | .takeOps _ => true
  | .exec _ => true
  | _ => false

namespace Acceptor

def start (cfg : ServerCommonConfig) : Acceptor := ⟨fun k => Worker.start k cfg, none⟩

def getCount (k : Fin WORKERS) (s : Acceptor) : ℕ := (s.workers k).server.count

def stepWorker (k : Fin WORKERS) (e : WorkerEvent) (s : Acceptor) : Option Acceptor :=
  ((s.workers k).step e).map fun w => { s with workers := Function.update s.workers k w }

def step : AcceptEvent → Acceptor → Option Acceptor
  | .accept sock, s =>
      match s.choice with
      | none => some { s with choice := some ⟨sock, s.getCount 0, 0, 1⟩ }
      | some _ => none
  | .getCount, s =>
      s.choice.bind fun c =>
        if h : c.i < WORKERS then
          let cap := s.getCount ⟨c.i, h⟩
          if cap < c.min_cap then
            some { s with choice := some ⟨c.sock, cap, ⟨c.i, h⟩, c.i + 1⟩ }
          else some { s with choice := some { c with i := c.i + 1 } }
        else none
  | .accepted, s =>
      s.choice.bind fun c =>
        if c.i < WORKERS then none
        else { s with choice := none }.stepWorker c.idx (.accepted c.sock)
  | .takeOps k, s => s.stepWorker k .takeOps
  | .exec k, s => s.stepWorker k (.exec ⟨0, false, false, false⟩)

/-- All operations have been processed. -/
def Processed (s : Acceptor) : Prop := ∀ k, (s.workers k).pending = []

def Even (s : Acceptor) : Prop := ∀ j k, s.getCount j ≤ s.getCount k + 1

def load (k : Fin WORKERS) (s : Acceptor) : ℕ := (s.workers k).load

/-- How many connections worker `k` enters before its count is read. `scan` is what follows when
the counts of the first `i` workers have been read. -/
def entered (k : Fin WORKERS) : ℕ → List AcceptEvent → ℕ
  | _, [] => 0
  | i, e :: scan =>
      if k < i then 0
      else (if e = .exec k then 1 else 0) + entered k (if e = .getCount then i + 1 else i) scan

/-- The count that is read of worker `k`: the one at `accept()` and what the worker works off
until its turn comes. Worker 0 is read at once. -/
def cap (s : Acceptor) (scan : List AcceptEvent) (k : Fin WORKERS) : ℕ :=
  s.getCount k + entered k 1 scan

/-- At `accept()` the worker of which the least will be read has the fewest connections and queued
sockets together. -/
def LeastLoaded (scan : List AcceptEvent) (s : Acceptor) : Prop :=
  ∀ k, FirstLeast (s.cap scan) k → ∀ j, s.load k ≤ s.load j

/-- It is so for each socket that a run accepts and hands over. -/
def AllLeastLoaded (cfg : ServerCommonConfig) (es : List AcceptEvent) : Prop :=
  ∀ pre sock scan suf s, es = pre ++ .accept sock :: scan ++ .accepted :: suf →
    .accepted ∉ scan → Transition.run step pre (start cfg) = some s →
    Transition.run step (.accept sock :: scan ++ [.accepted]) s ≠ none → s.LeastLoaded scan

instance (s : Acceptor) : Decidable s.Processed := inferInstanceAs (Decidable (∀ _, _))

instance (s : Acceptor) : Decidable s.Even := inferInstanceAs (Decidable (∀ _ _, _))

end Acceptor

namespace Worker

/-- Every operation in the list carries a socket. -/
structure Accepts (w : Worker) : Prop where
  table : w.server.SlotInv
  sockets : ∀ op ∈ w.pending, ∃ sock : ℕ, op = .accept sock

variable {w u : Worker}

theorem accepts_start (k : Fin WORKERS) (cfg : ServerCommonConfig) : (start k cfg).Accepts :=
  ⟨TcpSlaveServer.slotInv_start k cfg, fun _ h => nomatch h⟩

theorem Accepts.accepted {sock : ℕ} (h : w.Accepts) (hu : w.step (.accepted sock) = some u) :
    u.Accepts ∧ u.load = w.load + 1 := by
  obtain rfl := Option.some.inj hu
  have hpending : ({ w with server := w.server.accepted sock } : Worker).pending =
      w.pending ++ [.accept sock] := by simp [pending, TcpSlaveServer.accepted]
  refine ⟨⟨⟨h.table.tidy, h.table.count, h.table.uid⟩, fun op hop => ?_⟩, ?_⟩
  · rw [hpending] at hop
    rcases List.mem_append.mp hop with hop | hop
    · exact h.sockets op hop
    · exact ⟨sock, List.mem_singleton.mp hop⟩
  · rw [load, hpending, List.length_append, load, TcpSlaveServer.accepted]
    simp [add_assoc]

theorem Accepts.takeOps (h : w.Accepts) (hu : w.step .takeOps = some u) :
    u.Accepts ∧ u.load = w.load := by
  simp only [step] at hu
  split_ifs at hu with hr
  obtain rfl := Option.some.inj hu
  rw [List.isEmpty_iff] at hr
  have hpending : ({ w with
      server := { w.server with opList := [] }, rlist := w.server.opList } : Worker).pending =
      w.pending := by simp [pending, hr]
  refine ⟨⟨⟨h.table.tidy, h.table.count, h.table.uid⟩, ?_⟩, ?_⟩
  · rw [hpending]
    exact h.sockets
  · rw [load, load, hpending]

/-- One operation turns a queued socket into a connection. -/
theorem Accepts.exec_cons {op : OpStruct} {ops : List OpStruct} (h : w.Accepts)
    (hr : w.rlist = op :: ops) : ∃ u, w.step (.exec ⟨0, false, false, false⟩) = some u ∧
      u.Accepts ∧ u.load = w.load ∧ u.server.count = w.server.count + 1 ∧ u.rlist = ops ∧
        u.server.opList = w.server.opList := by
  obtain ⟨sock, rfl⟩ := h.sockets op (by simp [pending, hr])
  obtain ⟨t, ht, hcases⟩ := TcpSlaveServer.doAccept_cases ⟨0, false, false, false⟩ sock h.table
  have hlist := opList_accepted hcases
  have hcount : t.count = w.server.count + 1 := by
    rcases hcases with ⟨hnone, -⟩ | ⟨c, hi⟩
    · have hpos : ¬ (sock : ℤ) < 0 := by omega
      rw [TcpSlaveServer.construct, if_neg hpos] at hnone
      simp [TcpSlaveServer.newConduit, make] at hnone
    · exact hi.count
  have hpending : ({ w with server := t, rlist := ops } : Worker).pending = w.pending.tail := by
    simp [pending, hr, hlist]
  have hlen : w.pending.length = w.pending.tail.length + 1 := by simp [pending, hr]
  refine ⟨{ w with server := t, rlist := ops }, by simp [step, execOp, hr, ht],
    ⟨h.table.doAccept ht, fun op hop => ?_⟩, ?_, hcount, rfl, hlist⟩
  · rw [hpending] at hop
    exact h.sockets op (List.mem_of_mem_tail hop)
  · rw [load, load, hpending, hlen, hcount]
    omega

theorem Accepts.exec (h : w.Accepts) (hu : w.step (.exec ⟨0, false, false, false⟩) = some u) :
    u.Accepts ∧ u.load = w.load ∧ u.server.count = w.server.count + 1 := by
  cases hr : w.rlist with
  | nil => simp [step, execOp, hr] at hu
  | cons op ops =>
    obtain ⟨v, hv, haccepts, hload, hcount, -⟩ := h.exec_cons hr
    obtain rfl : v = u := Option.some.inj (hv.symm.trans hu)
    exact ⟨haccepts, hload, hcount⟩

theorem count_takeOps (hu : w.step .takeOps = some u) : u.server.count = w.server.count := by
  simp only [step] at hu
  split_ifs at hu
  obtain rfl := Option.some.inj hu
  rfl

end Worker

namespace Acceptor

variable {s t : Acceptor} {k : Fin WORKERS}

def Inv (s : Acceptor) : Prop := ∀ k, (s.workers k).Accepts

theorem inv_start (cfg : ServerCommonConfig) : (start cfg).Inv :=
  fun k => Worker.accepts_start k cfg

theorem Inv.stepWorker {e : WorkerEvent} {n : ℕ} (h : s.Inv)
    (hw : ∀ u, (s.workers k).step e = some u → u.Accepts ∧ u.load = (s.workers k).load + n)
    (ht : s.stepWorker k e = some t) :
    t.Inv ∧ ∀ j, t.load j = s.load j + if j = k then n else 0 := by
  obtain ⟨u, hu, rfl⟩ := Option.map_eq_some_iff.mp ht
  obtain ⟨haccepts, hload⟩ := hw u hu
  refine ⟨fun j => ?_, fun j => ?_⟩
  · by_cases hj : j = k
    · subst hj
      simpa using haccepts
    · simpa [hj] using h j
  · by_cases hj : j = k
    · subst hj
      simpa [load] using hload
    · simp [load, hj]

/-- Only `accepted` changes a load, that of the worker chosen. -/
theorem Inv.step {e : AcceptEvent} (h : s.Inv) (ht : Acceptor.step e s = some t) : t.Inv ∧
    ((e ≠ .accepted ∧ ∀ j, t.load j = s.load j) ∨
      e = .accepted ∧ ∃ c, s.choice = some c ∧ WORKERS ≤ c.i ∧
        ∀ j, t.load j = s.load j + if j = c.idx then 1 else 0) := by
  cases e with
  | accept sock =>
    cases hc : s.choice with
    | none =>
      simp only [Acceptor.step, hc] at ht
      obtain rfl := Option.some.inj ht
      exact ⟨h, Or.inl ⟨by simp, fun _ => rfl⟩⟩
    | some c => simp [Acceptor.step, hc] at ht
  | getCount =>
    obtain ⟨c, hc, hread⟩ := Option.bind_eq_some_iff.mp ht
    dsimp only at hread
    split_ifs at hread
    · obtain rfl := Option.some.inj hread
      exact ⟨h, Or.inl ⟨by simp, fun _ => rfl⟩⟩
    · obtain rfl := Option.some.inj hread
      exact ⟨h, Or.inl ⟨by simp, fun _ => rfl⟩⟩
  | accepted =>
    obtain ⟨c, hc, hplace⟩ := Option.bind_eq_some_iff.mp ht
    split_ifs at hplace with hi
    have hn : Inv { s with choice := none } := h
    obtain ⟨hinv, hload⟩ := hn.stepWorker (fun u hu => (h c.idx).accepted hu) hplace
    exact ⟨hinv, Or.inr ⟨rfl, c, hc, not_lt.mp hi, hload⟩⟩
  | takeOps k =>
    obtain ⟨hinv, hload⟩ := h.stepWorker (n := 0) (fun u hu => (h k).takeOps hu) ht
    exact ⟨hinv, Or.inl ⟨by simp, by simpa using hload⟩⟩
  | exec k =>
    obtain ⟨hinv, hload⟩ := h.stepWorker (n := 0)
      (fun u hu => ⟨((h k).exec hu).1, ((h k).exec hu).2.1⟩) ht
    exact ⟨hinv, Or.inl ⟨by simp, by simpa using hload⟩⟩

/-- The events `ds` of `onOpCheck` lead from `s` to `t`. -/
def Drained (s t : Acceptor) : Prop :=
  ∃ ds, (∀ e ∈ ds, AcceptEvent.drains e = true) ∧ Transition.run step ds s = some t

theorem Drained.refl (s : Acceptor) : Drained s s := ⟨[], by simp, rfl⟩

theorem Drained.cons {e : AcceptEvent} {u : Acceptor} (he : e.drains = true)
    (ht : step e s = some t) (h : Drained t u) : Drained s u := by
  obtain ⟨ds, hds, hrun⟩ := h
  exact ⟨e :: ds, List.forall_mem_cons.mpr ⟨he, hds⟩, Transition.run_cons.mpr ⟨t, ht, hrun⟩⟩

theorem Drained.trans {u : Acceptor} (h : Drained s t) (h' : Drained t u) : Drained s u := by
  obtain ⟨ds, hds, hrun⟩ := h
  obtain ⟨ds', hds', hrun'⟩ := h'
  refine ⟨ds ++ ds', fun e he => ?_, Transition.run_append hrun hrun'⟩
  rcases List.mem_append.mp he with he | he
  · exact hds e he
  · exact hds' e he

/-- Draining keeps every load. -/
theorem Drained.load (h : Drained s t) (hs : s.Inv) : t.Inv ∧ ∀ j, t.load j = s.load j := by
  obtain ⟨ds, hds, hrun⟩ := h
  induction ds generalizing s with
  | nil =>
    obtain rfl : s = t := Option.some.inj hrun
    exact ⟨hs, fun _ => rfl⟩
  | cons e ds ih =>
    obtain ⟨u, hu, hrun⟩ := Transition.run_cons.mp hrun
    obtain ⟨hinv, hload⟩ := hs.step hu
    obtain ⟨he, hds⟩ := List.forall_mem_cons.mp hds
    have hkept : ∀ j, u.load j = s.load j := by
      rcases hload with ⟨-, hload⟩ | ⟨rfl, -⟩
      · exact hload
      · cases he
    obtain ⟨htinv, ht⟩ := ih hinv hds hrun
    exact ⟨htinv, fun j => (ht j).trans (hkept j)⟩

/-- The batch of one worker can be worked off. -/
theorem Inv.workOff (h : s.Inv) (k : Fin WORKERS) : ∃ t, Drained s t ∧ (t.workers k).rlist = [] ∧
    (t.workers k).server.opList = (s.workers k).server.opList ∧
    ∀ j, j ≠ k → t.workers j = s.workers j := by
  induction hr : (s.workers k).rlist generalizing s with
  | nil => exact ⟨s, Drained.refl s, hr, rfl, fun _ _ => rfl⟩
  | cons op ops ih =>
    obtain ⟨w, hw, -, -, -, hrlist, hlist⟩ := (h k).exec_cons hr
    have hstep : Acceptor.step (.exec k) s =
        some { s with workers := Function.update s.workers k w } := by
      simp [Acceptor.step, Acceptor.stepWorker, hw]
    obtain ⟨t, ht, hempty, hsame, hrest⟩ := ih (h.step hstep).1 (by simpa using hrlist)
    refine ⟨t, ht.cons rfl hstep, hempty, ?_, fun j hj => ?_⟩
    · rw [hsame]
      simpa using hlist
    · rw [hrest j hj]
      simp [hj]

theorem Inv.settle (h : s.Inv) (k : Fin WORKERS) : ∃ t, Drained s t ∧
    (t.workers k).pending = [] ∧ ∀ j, j ≠ k → t.workers j = s.workers j := by
  obtain ⟨u, hu, hempty, -, hrest⟩ := h.workOff k
  let w : Worker := { u.workers k with
    server := { (u.workers k).server with opList := [] }
    rlist := (u.workers k).server.opList }
  have hstep : Acceptor.step (.takeOps k) u =
      some { u with workers := Function.update u.workers k w } := by
    simp [Acceptor.step, Acceptor.stepWorker, Worker.step, hempty, w]
  obtain ⟨t, ht, hdone, hlist, hrest'⟩ := ((hu.load h).1.step hstep).1.workOff k
  refine ⟨t, hu.trans (ht.cons rfl hstep), ?_, fun j hj => ?_⟩
  · rw [Worker.pending, hdone, hlist]
    simp [w]
  · rw [hrest' j hj, ← hrest j hj]
    simp [hj]

theorem Inv.processed (h : s.Inv) : ∃ t, Drained s t ∧ t.Processed := by
  have hall : ∀ ks : List (Fin WORKERS), ∃ t, Drained s t ∧
      ∀ k ∈ ks, (t.workers k).pending = [] := by
    intro ks
    induction ks with
    | nil => exact ⟨s, Drained.refl s, fun _ h => nomatch h⟩
    | cons k ks ih =>
      obtain ⟨u, hu, hdone⟩ := ih
      obtain ⟨t, ht, hk, hrest⟩ := (hu.load h).1.settle k
      refine ⟨t, hu.trans ht, fun j hj => ?_⟩
      by_cases he : j = k
      · rw [he, hk]
      · rw [hrest j he]
        exact hdone j ((List.mem_cons.mp hj).resolve_left he)
  obtain ⟨t, ht, hdone⟩ := hall (List.finRange WORKERS)
  exact ⟨t, ht, fun k => hdone k (List.mem_finRange k)⟩

/-- The loads differ by at most one. -/
def Level (s : Acceptor) : Prop := ∀ j k, s.load j ≤ s.load k + 1

theorem Processed.even_iff (h : s.Processed) : s.Even ↔ s.Level := by
  have hload : ∀ k, s.load k = s.getCount k := fun k => by
    simp [load, Worker.load, getCount, h k]
  simp only [Even, Level, hload]

/-- The counts come out even, whenever the lists are worked off, if and only if the loads are. -/
theorem Inv.even_iff (h : s.Inv) : (∀ t, Drained s t → t.Processed → t.Even) ↔ s.Level := by
  have hlevel : ∀ t, Drained s t → (t.Level ↔ s.Level) := fun t ht => by
    simp only [Level, (ht.load h).2]
  constructor
  · intro heven
    obtain ⟨t, ht, hdone⟩ := h.processed
    exact (hlevel t ht).mp (hdone.even_iff.mp (heven t ht hdone))
  · intro hs t ht hdone
    exact hdone.even_iff.mpr ((hlevel t ht).mpr hs)

/-- A step that hands no socket over keeps an even state even. -/
theorem Inv.level {e : AcceptEvent} (h : s.Inv) (hs : s.Level) (he : e ≠ .accepted)
    (ht : Acceptor.step e s = some t) : t.Level := by
  rcases (h.step ht).2 with ⟨-, hload⟩ | ⟨rfl, -⟩
  · simp only [Level, hload]
    exact hs
  · exact absurd rfl he

/-- An even state stays even exactly when the socket goes to a worker that has the fewest. -/
theorem Inv.level_iff {c : Choice} (h : s.Inv) (hs : s.Level) (hc : s.choice = some c)
    (ht : Acceptor.step .accepted s = some t) : t.Level ↔ ∀ k, s.load c.idx ≤ s.load k := by
  rcases (h.step ht).2 with ⟨he, -⟩ | ⟨-, c', hc', -, hload⟩
  · exact absurd rfl he
  · obtain rfl : c = c' := Option.some.inj (hc.symm.trans hc')
    simp only [Level, hload]
    constructor
    · intro hlevel k
      have hk := hlevel c.idx k
      by_cases hck : k = c.idx
      · rw [hck]
      · simp only [if_true, if_neg hck] at hk
        omega
    · intro hleast j k
      have hjk := hs j k
      have hk := hleast k
      split_ifs with hj hk'
      · subst hj
        omega
      · subst hj
        omega
      · omega
      · omega

theorem Inv.getCount_step {e : AcceptEvent} (h : s.Inv) (he : e ≠ .accepted)
    (ht : Acceptor.step e s = some t) (j : Fin WORKERS) :
    t.getCount j = s.getCount j + if e = .exec j then 1 else 0 := by
  cases e with
  | accept sock =>
    cases hc : s.choice with
    | none =>
      simp only [Acceptor.step, hc] at ht
      obtain rfl := Option.some.inj ht
      rfl
    | some c => simp [Acceptor.step, hc] at ht
  | getCount =>
    obtain ⟨c, hc, hread⟩ := Option.bind_eq_some_iff.mp ht
    dsimp only at hread
    split_ifs at hread
    · obtain rfl := Option.some.inj hread
      rfl
    · obtain rfl := Option.some.inj hread
      rfl
  | accepted => exact absurd rfl he
  | takeOps k =>
    obtain ⟨u, hu, rfl⟩ := Option.map_eq_some_iff.mp ht
    by_cases hj : j = k
    · subst hj
      simpa [getCount] using Worker.count_takeOps hu
    · simp [getCount, hj]
  | exec k =>
    obtain ⟨u, hu, rfl⟩ := Option.map_eq_some_iff.mp ht
    by_cases hj : j = k
    · subst hj
      simpa [getCount] using ((h j).exec hu).2.2
    · have hk : k ≠ j := Ne.symm hj
      simp [getCount, hj, hk]

/-- The variables of the loop, when `cap` is what is read of each worker: the index holds the
first of the least counts read, and each count that is still to be read will be as `cap` has it. -/
structure Scanned (cap : Fin WORKERS → ℕ) (scan : List AcceptEvent) (s : Acceptor) (c : Choice) :
    Prop where
  idx : c.idx < c.i
  min_cap : c.min_cap = cap c.idx
  first : ∀ j < c.idx, cap c.idx < cap j
  least : ∀ j : Fin WORKERS, j < c.i → cap c.idx ≤ cap j
  ahead : ∀ k : Fin WORKERS, c.i ≤ k → cap k = s.getCount k + entered k c.i scan

theorem entered_of_lt {i : ℕ} (hk : (k : ℕ) < i) (scan : List AcceptEvent) :
    entered k i scan = 0 := by
  cases scan with
  | nil => rfl
  | cons e scan => rw [entered, if_pos hk]

theorem entered_getCount (k : Fin WORKERS) (i : ℕ) (scan : List AcceptEvent) :
    entered k i (.getCount :: scan) = entered k (i + 1) scan := by
  by_cases hk : (k : ℕ) < i
  · rw [entered_of_lt hk, entered_of_lt (Nat.lt_succ_of_lt hk)]
  · simp [entered, hk]

theorem scanned_accept (s : Acceptor) (sock : ℕ) (scan : List AcceptEvent) :
    Scanned (s.cap scan) scan { s with choice := some ⟨sock, s.getCount 0, 0, 1⟩ }
      ⟨sock, s.getCount 0, 0, 1⟩ where
  idx := Nat.one_pos
  min_cap := by
    have hread : entered 0 1 scan = 0 := entered_of_lt Nat.one_pos scan
    rw [cap, hread, add_zero]
  first := fun j hj => absurd hj (Fin.not_lt_zero j)
  least := fun j hj => by
    obtain rfl : j = 0 := Fin.ext (Nat.lt_one_iff.mp hj)
    exact le_rfl
  ahead := fun _ _ => rfl

/-- Another step of a worker leaves the loop alone, and what `cap` says of a count to be read. -/
theorem Scanned.drain {cap : Fin WORKERS → ℕ} {scan : List AcceptEvent} {c : Choice}
    {e : AcceptEvent} (h : Scanned cap (e :: scan) s c) (hs : s.Inv) (he : e.drains = true)
    (ht : Acceptor.step e s = some t) : Scanned cap scan t c := by
  refine ⟨h.idx, h.min_cap, h.first, h.least, fun k hk => ?_⟩
  have hne : e ≠ .accepted := fun h => by simp [h, AcceptEvent.drains] at he
  have hlate : ¬ (k : ℕ) < c.i := not_lt.mpr hk
  rw [h.ahead k hk, hs.getCount_step hne ht k, entered, if_neg hlate]
  have hread : e ≠ .getCount := fun h => by simp [h, AcceptEvent.drains] at he
  rw [if_neg hread, add_assoc]

/-- One pass through the loop. -/
theorem Scanned.read {cap : Fin WORKERS → ℕ} {scan : List AcceptEvent} {c : Choice}
    (h : Scanned cap (.getCount :: scan) s c) (hc : s.choice = some c)
    (ht : Acceptor.step .getCount s = some t) :
    ∃ c', t.choice = some c' ∧ Scanned cap scan t c' := by
  simp only [Acceptor.step, hc, Option.bind_some] at ht
  split_ifs at ht with hi hless
  all_goals
    have hread : cap ⟨c.i, hi⟩ = s.getCount ⟨c.i, hi⟩ := by
      have hzero : entered ⟨c.i, hi⟩ (c.i + 1) scan = 0 := entered_of_lt (Nat.lt_succ_self c.i) scan
      rw [h.ahead ⟨c.i, hi⟩ le_rfl, entered_getCount, hzero, add_zero]
    have hahead : ∀ k : Fin WORKERS, c.i + 1 ≤ k →
        cap k = s.getCount k + entered k (c.i + 1) scan := by
      intro k hk
      rw [h.ahead k (Nat.le_of_succ_le hk), entered_getCount]
    obtain rfl := Option.some.inj ht
    refine ⟨_, rfl, ?_⟩
  · have hnew : cap ⟨c.i, hi⟩ < cap c.idx := by
      rw [hread, ← h.min_cap]
      exact hless
    refine ⟨Nat.lt_succ_self _, hread.symm, fun j hj => ?_, fun j hj => ?_, hahead⟩
    · exact hnew.trans_le (h.least j hj)
    · rcases Nat.lt_succ_iff_lt_or_eq.mp hj with hj | hj
      · exact hnew.le.trans (h.least j hj)
      · obtain rfl : j = ⟨c.i, hi⟩ := Fin.ext hj
        exact le_rfl
  · refine ⟨h.idx.trans (Nat.lt_succ_self _), h.min_cap, h.first, fun j hj => ?_, hahead⟩
    rcases Nat.lt_succ_iff_lt_or_eq.mp hj with hj | hj
    · exact h.least j hj
    · obtain rfl : j = ⟨c.i, hi⟩ := Fin.ext hj
      rw [hread, ← h.min_cap]
      exact not_lt.mp hless

theorem Scanned.step {cap : Fin WORKERS → ℕ} {scan : List AcceptEvent} {c : Choice}
    {e : AcceptEvent} (h : Scanned cap (e :: scan) s c) (hs : s.Inv) (hc : s.choice = some c)
    (he : e ≠ .accepted) (ht : Acceptor.step e s = some t) :
    ∃ c', t.choice = some c' ∧ Scanned cap scan t c' := by
  cases e with
  | accept sock => simp [Acceptor.step, hc] at ht
  | getCount => exact h.read hc ht
  | accepted => exact absurd rfl he
  | takeOps k =>
    obtain ⟨u, -, rfl⟩ := Option.map_eq_some_iff.mp ht
    exact ⟨c, hc, h.drain hs rfl ht⟩
  | exec k =>
    obtain ⟨u, -, rfl⟩ := Option.map_eq_some_iff.mp ht
    exact ⟨c, hc, h.drain hs rfl ht⟩

theorem Scanned.run {cap : Fin WORKERS → ℕ} {scan : List AcceptEvent} {c : Choice}
    (h : Scanned cap scan s c) (hs : s.Inv) (hc : s.choice = some c) (hscan : .accepted ∉ scan)
    (ht : Transition.run Acceptor.step scan s = some t) :
    ∃ c', t.choice = some c' ∧ Scanned cap [] t c' ∧ ∀ j, t.load j = s.load j := by
  induction scan generalizing s c with
  | nil =>
    obtain rfl : s = t := Option.some.inj ht
    exact ⟨c, hc, h, fun _ => rfl⟩
  | cons e scan ih =>
    obtain ⟨u, hu, hrest⟩ := Transition.run_cons.mp ht
    rw [List.mem_cons, not_or] at hscan
    obtain ⟨he, hscan⟩ := hscan
    obtain ⟨d, hd, hscanned⟩ := h.step hs hc (Ne.symm he) hu
    obtain ⟨hinv, hload⟩ := hs.step hu
    have hkept : ∀ j, u.load j = s.load j := by
      rcases hload with ⟨-, hload⟩ | ⟨rfl, -⟩
      · exact hload
      · exact absurd rfl he
    obtain ⟨c', hc', hend, hsame⟩ := ih hscanned hinv hd hscan hrest
    exact ⟨c', hc', hend, fun j => (hsame j).trans (hkept j)⟩

/-- A whole scan chooses the first of the workers of which the least was read, and leaves the
loads as they were at `accept()`. -/
theorem Inv.chosen {sock : ℕ} {scan : List AcceptEvent} {u : Acceptor} (h : s.Inv)
    (hscan : .accepted ∉ scan)
    (ht : Transition.run Acceptor.step (.accept sock :: scan) s = some t)
    (hu : Acceptor.step .accepted t = some u) :
    ∃ c, t.choice = some c ∧ FirstLeast (s.cap scan) c.idx ∧ ∀ j, t.load j = s.load j := by
  obtain ⟨v, hv, hrest⟩ := Transition.run_cons.mp ht
  have hinv := (h.step hv).1
  cases hc : s.choice with
  | some c => simp [Acceptor.step, hc] at hv
  | none =>
    simp only [Acceptor.step, hc] at hv
    obtain rfl := Option.some.inj hv
    obtain ⟨c, hchoice, hend, hload⟩ := (scanned_accept s sock scan).run hinv rfl hscan hrest
    refine ⟨c, hchoice, ⟨hend.first, fun j => ?_⟩, hload⟩
    obtain ⟨d, hd, hplace⟩ := Option.bind_eq_some_iff.mp hu
    obtain rfl : c = d := Option.some.inj (hchoice.symm.trans hd)
    split_ifs at hplace with hi
    exact hend.least j (j.isLt.trans_le (not_lt.mp hi))

/-- A choice under way goes back to its `accept()`. -/
theorem exists_accept {cfg : ServerCommonConfig} {pre : List AcceptEvent} {c : Choice}
    (hs : Transition.run Acceptor.step pre (start cfg) = some s) (hc : s.choice = some c) :
    ∃ pre' sock scan r, pre = pre' ++ .accept sock :: scan ∧ .accepted ∉ scan ∧
      Transition.run Acceptor.step pre' (start cfg) = some r ∧
      Transition.run Acceptor.step (.accept sock :: scan) r = some s := by
  induction pre using List.reverseRecOn generalizing s c with
  | nil =>
    obtain rfl : start cfg = s := Option.some.inj hs
    cases hc
  | append_singleton pre e ih =>
    obtain ⟨r, hr, hstep⟩ := Transition.run_snoc.mp hs
    cases hrc : r.choice with
    | none =>
      cases e with
      | accept sock =>
        exact ⟨pre, sock, [], r, rfl, by simp, hr, Transition.run_cons.mpr ⟨s, hstep, rfl⟩⟩
      | getCount => simp [Acceptor.step, hrc] at hstep
      | accepted => simp [Acceptor.step, hrc] at hstep
      | takeOps k =>
        obtain ⟨u, -, rfl⟩ := Option.map_eq_some_iff.mp hstep
        exact absurd (hrc.symm.trans hc) (by simp)
      | exec k =>
        obtain ⟨u, -, rfl⟩ := Option.map_eq_some_iff.mp hstep
        exact absurd (hrc.symm.trans hc) (by simp)
    | some d =>
      have he : e ≠ .accepted := by
        rintro rfl
        obtain ⟨d, -, hplace⟩ := Option.bind_eq_some_iff.mp hstep
        split_ifs at hplace
        obtain ⟨u, -, rfl⟩ := Option.map_eq_some_iff.mp hplace
        cases hc
      obtain ⟨pre', sock, scan, q, rfl, hscan, hq, hrun⟩ := ih hr hrc
      refine ⟨pre', sock, scan ++ [e], q, by simp, ?_, hq, ?_⟩
      · simp [hscan, Ne.symm he]
      · rw [← List.cons_append]
        exact Transition.run_snoc.mpr ⟨r, hrun, hstep⟩

theorem inv_run {cfg : ServerCommonConfig} {es : List AcceptEvent}
    (h : Transition.run Acceptor.step es (start cfg) = some s) : s.Inv :=
  Transition.run_preserves (fun _ _ _ hi ht => (hi.step ht).1) (inv_start cfg) h

theorem AllLeastLoaded.level {cfg : ServerCommonConfig} {es pre suf : List AcceptEvent}
    (h : AllLeastLoaded cfg es) (he : es = pre ++ suf)
    (hs : Transition.run Acceptor.step pre (start cfg) = some s) : s.Level := by
  induction pre using List.reverseRecOn generalizing suf s with
  | nil =>
    obtain rfl : start cfg = s := Option.some.inj hs
    exact fun _ _ => Nat.zero_le _
  | append_singleton pre e ih =>
    obtain ⟨r, hr, hstep⟩ := Transition.run_snoc.mp hs
    have hsplit : es = pre ++ e :: suf := by simpa using he
    have hlevel : r.Level := ih hsplit hr
    by_cases hplace : e = .accepted
    · subst hplace
      obtain ⟨c, hc, -⟩ := Option.bind_eq_some_iff.mp hstep
      obtain ⟨pre', sock, scan, q, rfl, hscan, hq, hrun⟩ := exists_accept hr hc
      have hdone : Transition.run Acceptor.step (.accept sock :: scan ++ [.accepted]) q = some s :=
        Transition.run_snoc.mpr ⟨r, hrun, hstep⟩
      obtain ⟨c', hc', hfirst, hload⟩ := (inv_run hq).chosen hscan hrun hstep
      obtain rfl : c = c' := Option.some.inj (hc.symm.trans hc')
      have hleast := h pre' sock scan suf q (by simpa using he) hscan hq
        (by rw [hdone]; exact Option.some_ne_none s) c.idx hfirst
      apply ((inv_run hr).level_iff hlevel hc hstep).mpr
      intro k
      rw [hload, hload]
      exact hleast k
    · exact (inv_run hr).level hlevel hplace hstep

end Acceptor

/-- In all states of a run the counts come out even, once the operations are processed, exactly
when each socket is accepted at a time when the worker whose count will be the least one read also
has the fewest connections and queued sockets. -/
theorem workers_even_iff (cfg : ServerCommonConfig) (es : List AcceptEvent) :
    (∀ pre suf s t, es = pre ++ suf →
      Transition.run Acceptor.step pre (Acceptor.start cfg) = some s → Acceptor.Drained s t →
      t.Processed → t.Even) ↔ Acceptor.AllLeastLoaded cfg es := by
  constructor
  · rintro heven pre sock scan suf s he hscan hs hrun k hk j
    have hlevel : ∀ pre suf s, es = pre ++ suf →
        Transition.run Acceptor.step pre (Acceptor.start cfg) = some s → s.Level :=
      fun pre suf s he hs => (Acceptor.inv_run hs).even_iff.mp fun t => heven pre suf s t he hs
    obtain ⟨u, hu⟩ := Option.ne_none_iff_exists'.mp hrun
    obtain ⟨t, ht, hstep⟩ := Transition.run_snoc.mp hu
    obtain ⟨c, hc, hfirst, hload⟩ := (Acceptor.inv_run hs).chosen hscan ht hstep
    have hpre := Transition.run_append hs ht
    have hlt := hlevel _ (.accepted :: suf) t he hpre
    have hlu := hlevel _ suf u (by simpa using he) (Transition.run_snoc.mpr ⟨t, hpre, hstep⟩)
    obtain rfl := hk.unique hfirst
    rw [← hload, ← hload]
    exact ((Acceptor.inv_run hpre).level_iff hlt hc hstep).mp hlu j
  · intro hleast pre suf s t he hs hdrain hdone
    exact (Acceptor.inv_run hs).even_iff.mpr (hleast.level he hs) t hdrain hdone

/-- Two sockets that arrive in one read event go to worker 0, whose count stands still. -/
theorem workers_uneven : ∃ s t, Transition.run Acceptor.step
      [.accept 5, .getCount, .accepted, .accept 6, .getCount, .accepted]
      (Acceptor.start (.ofType 5 1 8000)) = some s ∧
    Transition.run Acceptor.step [.takeOps 0, .exec 0, .exec 0] s = some t ∧
    t.Processed ∧ t.getCount 0 = 2 ∧ t.getCount 1 = 0 ∧ ¬ t.Even := by
  obtain ⟨s, hs, hrun⟩ := Transition.exists_run Acceptor.step
    [.accept 5, .getCount, .accepted, .accept 6, .getCount, .accepted]
    (Acceptor.start (.ofType 5 1 8000))
    (fun s => (Transition.run Acceptor.step [.takeOps 0, .exec 0, .exec 0] s).any fun t =>
      decide (t.Processed ∧ t.getCount 0 = 2 ∧ t.getCount 1 = 0 ∧ ¬ t.Even)) (by decide)
  obtain ⟨t, ht, heven⟩ := Transition.exists_run Acceptor.step [.takeOps 0, .exec 0, .exec 0] s
    (fun t => t.Processed ∧ t.getCount 0 = 2 ∧ t.getCount 1 = 0 ∧ ¬ t.Even) hrun
  exact ⟨s, t, hs, ht, heven⟩

end RgcFifa
