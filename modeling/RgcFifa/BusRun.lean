import RgcFifa.BusInv

/-! What every step of the bus preserves: the owners of its chunks of memory, and how the
blocks pushed, dispatched and freed follow each other. -/

namespace RgcFifa

open ByteWords

def Popper.hdr : Popper → List ℕ
  | .dispatch hdr => [hdr]
  | .free hdr => [hdr]
  | _ => []

/-- How many messages the logic has been called for whose block is not yet freed. -/
def Popper.calls : Popper → ℕ
  | .free _ => 1
  | _ => 0

def Block.dispatch (b : Block) : ℕ × Option LogicCall :=
  (b.buffer, some (b.msg.hdr.call b.msg.msgBody))

namespace MessageBus

def callsOf (s : MessageBus) (i : ℕ) : List PushMsg :=
  (s.called.filter (·.1 = i)).map Prod.snd

def insertedBy (s : MessageBus) (i : ℕ) : List PushMsg :=
  (s.inserted.filter (·.thread = i)).map Inserted.msg

end MessageBus

/-- `done` are the blocks freed and `bus` those inserted since. -/
structure Logs (done bus : List Block) (s : MessageBus) : Prop where
  inserted : s.inserted.map (fun e => (e.msg, e.buffer)) =
    (done ++ bus).map fun b => (b.msg, b.buffer)
  waiting : s.logic.hdr ++ s.msgQueue ++ s.global.m_MsgQueue = bus.map Block.buffer
  freed : s.freed = done.map Block.buffer
  dispatched : s.dispatched = (done ++ bus.take s.logic.calls).map Block.dispatch
  idle : s.logic = .getMsgQueue → s.msgQueue = []
  popping : s.logic = .pop → s.msgQueue ≠ []
  alive : s.logic ≠ .abort
  calls : ∀ i, s.callsOf i = s.insertedBy i ++ (s.threads i).msg.toList

structure BusInv (s : MessageBus) : Prop where
  inv : ∃ own free done bus, Owned own free bus s ∧ Logs done bus s

section

variable {own : ℕ → Option Holder} {free : Fin MEMPOOL_NUM → List ℕ} {done bus : List Block}
  {s t : MessageBus} {i a : ℕ}

theorem busInv_start : BusInv MessageBus.Init where
  inv := by
    refine ⟨fun _ => none, fun _ => [], [], [], ⟨⟨.nil, ?_⟩, ?_, ?_, ?_, ?_⟩, ?_⟩
    · intro c hc
      exact absurd hc List.not_mem_nil
    · intro a h ha
      exact nomatch ha
    · intro i
      exact ⟨rfl, List.nodup_nil, fun a ha => absurd ha List.not_mem_nil⟩
    · intro i
      exact threadOk_of_none rfl (fun _ _ _ he => nomatch he)
    · exact ⟨by simp, by simp, List.nodup_nil⟩
    · exact ⟨rfl, rfl, rfl, rfl, fun _ => rfl, (fun he => nomatch he), (fun he => nomatch he),
        fun _ => rfl⟩

/-- What thread `i` is called for and what it has inserted stay in step. -/
theorem Logs.calls_step {p : Pusher} (h : Logs done bus s) (cs : List PushMsg) (es : List Inserted)
    (hcalled : t.called = s.called ++ cs.map (i, ·)) (hinserted : t.inserted = s.inserted ++ es)
    (hthreads : t.threads = Function.update s.threads i p) (hes : ∀ e ∈ es, e.thread = i)
    (hp : (s.threads i).msg.toList ++ cs = es.map Inserted.msg ++ p.msg.toList) (j : ℕ) :
    t.callsOf j = t.insertedBy j ++ (t.threads j).msg.toList := by
  have hj := h.calls j
  rw [MessageBus.callsOf, MessageBus.insertedBy] at hj
  rw [MessageBus.callsOf, MessageBus.insertedBy, hcalled, hinserted, hthreads, List.filter_append,
    List.filter_append, List.map_append, List.map_append, hj]
  by_cases hij : j = i
  · subst j
    have hall : es.filter (·.thread = i) = es := List.filter_eq_self.mpr (by simpa using hes)
    simp [List.filter_map, Function.comp_def, hall, hp]
  · have hnone : es.filter (·.thread = j) = [] := by
      simp only [List.filter_eq_nil_iff, decide_eq_true_eq]
      intro e he hj
      exact hij (hj.symm.trans (hes e he))
    simp [List.filter_map, Function.comp_def, hnone, hij, Ne.symm hij]

/-- A thread that goes on with the same message changes none of the logs. -/
theorem Logs.setThread {p : Pusher} {m : Memory} {g : GlobalObject} (h : Logs done bus s)
    (hp : p.msg = (s.threads i).msg) (hg : g.m_MsgQueue = s.global.m_MsgQueue) :
    Logs done bus ({ s with mem := m, global := g }.setThread i p) where
  inserted := h.inserted
  waiting := by
    rw [MessageBus.setThread_global, hg]
    exact h.waiting
  freed := h.freed
  dispatched := h.dispatched
  idle := h.idle
  popping := h.popping
  alive := h.alive
  calls := h.calls_step [] [] (List.append_nil _).symm (List.append_nil _).symm rfl (by simp)
    (by simp [hp])

theorem Logs.calls_le (h : Logs done bus s) : s.logic.calls ≤ bus.length := by
  have hw := congrArg List.length h.waiting
  cases hp : s.logic with
  | free hdr =>
    simp only [hp, Popper.hdr, List.length_append, List.length_singleton, List.length_map] at hw
    rw [Popper.calls]
    omega
  | _ => exact Nat.zero_le _

theorem BusInv.call {msg : PushMsg} (h : BusInv s) (hth : s.threads i = .idle) :
    BusInv ({ s with called := s.called ++ [(i, msg)] }.setThread i (.alloc msg)) := by
  obtain ⟨own, free, done, bus, ho, hl⟩ := h.inv
  have hcalled : Owned own free bus { s with called := s.called ++ [(i, msg)] } :=
    ⟨ho.wf, ho.live, ho.pool, ho.thread, ho.bus⟩
  have halloc : ThreadOk own s.mem i (.alloc msg) :=
    threadOk_of_none rfl (fun _ _ _ he => nomatch he)
  refine ⟨own, free, done, bus, hcalled.setThread halloc, hl.inserted, hl.waiting, hl.freed,
    hl.dispatched, hl.idle, hl.popping, hl.alive, ?_⟩
  exact hl.calls_step [msg] [] rfl (List.append_nil _).symm rfl (by simp) (by simp [hth, Pusher.msg])

theorem BusInv.insert {msg : PushMsg} {buffer : ℕ} (h : BusInv s)
    (hth : s.threads i = .insert msg buffer) :
    BusInv ({ s with
      global := { s.global with m_MsgQueue := s.global.m_MsgQueue ++ [buffer] }
      inserted := s.inserted ++ [Inserted.mk i msg buffer] }.setThread i .idle) := by
  obtain ⟨own, free, done, bus, ho, hl⟩ := h.inv
  obtain ⟨own', b, hmsg, hbuf, ho'⟩ := ho.insert hth (s.global.m_MsgQueue ++ [buffer])
    (s.inserted ++ [Inserted.mk i msg buffer])
  have htake : (bus ++ [b]).take s.logic.calls = bus.take s.logic.calls := by
    have hle := hl.calls_le
    rw [List.take_append_of_le_length hle]
  refine ⟨own', free, done, bus ++ [b], ho', ?_, ?_, hl.freed, ?_, hl.idle, hl.popping, hl.alive, ?_⟩
  · have hin := hl.inserted
    simp only [MessageBus.setThread, List.map_append, ← List.append_assoc] at hin ⊢
    rw [hin]
    simp [hmsg, hbuf]
  · have hw := hl.waiting
    simp only [MessageBus.setThread, List.map_append, ← List.append_assoc] at hw ⊢
    rw [hw]
    simp [hbuf]
  · have hd := hl.dispatched
    simp only [MessageBus.setThread]
    rw [htake, hd]
  · exact hl.calls_step [] [Inserted.mk i msg buffer] (List.append_nil _).symm rfl rfl (by simp)
      (by simp [hth, Pusher.msg])

theorem BusInv.pushMsg (h : BusInv s) (hs : s.pushMsg i a = some t) : BusInv t := by
  obtain ⟨own, free, done, bus, ho, hl⟩ := h.inv
  cases pushMsg_cases hs with
  | @request msg hth =>
    have hreq : ThreadOk own s.mem i
        (.malloc msg (chunkSize msg.size) (chunkOffset msg.size)) := by
      refine threadOk_of_none rfl ?_
      rintro _ _ _ ⟨⟩
      exact ⟨rfl, rfl⟩
    exact ⟨own, free, done, bus, ho.setThread hreq, hl.setThread (by rw [hth]; rfl) rfl⟩
  | alloc hth hle hp =>
    obtain ⟨own', free', ho'⟩ := ho.allocHit hle hp
    exact ⟨own', free', done, bus, ho', hl.setThread (by rw [hth]; rfl) rfl⟩
  | malloc hth hm =>
    obtain ⟨own', ho'⟩ := ho.malloc hth hm
    exact ⟨own', free, done, bus, ho', hl.setThread (by rw [hth]; rfl) rfl⟩
  | write hb hp hx hfit hmsg =>
    exact ⟨own, free, done, bus, ho.write hb hp hx hfit, hl.setThread hmsg rfl⟩
  | insert hth => exact h.insert hth

theorem Logs.current {hdr : ℕ} (h : Logs done bus s) (hp : s.logic.hdr = [hdr]) :
    ∃ b rest, bus = b :: rest ∧ b.buffer = hdr ∧
      s.msgQueue ++ s.global.m_MsgQueue = rest.map Block.buffer := by
  have hw := h.waiting
  rw [hp] at hw
  cases bus with
  | nil => exact nomatch hw
  | cons b rest =>
    obtain ⟨hb, hrest⟩ := List.cons.inj hw
    exact ⟨b, rest, rfl, hb.symm, hrest⟩

theorem Block.Full.processMsg {b : Block} {m : Memory} (h : b.Full m) :
    MsgPopHandler.processMsg m b.buffer = some (b.msg.hdr.call b.msg.msgBody) := by
  have hmsg := (Memory.holds_append.mp h).2
  rw [PushMsg.sizeWord, length_le] at hmsg
  have hread := processMsg_holds b.msg.fits b.msg.int_le b.msg.int_lt hmsg
  rw [processMsg_block b.msg.fits, ← Nat.add_assoc] at hread
  exact hread

theorem BusInv.processMsg (h : BusInv s) (hs : s.processMsg = some t) : BusInv t := by
  obtain ⟨own, free, done, bus, ho, hl⟩ := h.inv
  have hw := hl.waiting
  have hd := hl.dispatched
  cases processMsg_cases hs with
  | wait => exact h
  | get hp hq =>
    rw [hp, hl.idle hp] at hw
    rw [hp] at hd
    exact ⟨own, free, done, bus, ⟨ho.wf, ho.live, ho.pool, ho.thread, ho.bus⟩, hl.inserted,
      by simpa [Popper.hdr] using hw, hl.freed, hd, (by simp), fun _ => hq, (by simp), hl.calls⟩
  | pop hp hq =>
    rw [hp, hq] at hw
    rw [hp] at hd
    exact ⟨own, free, done, bus, ⟨ho.wf, ho.live, ho.pool, ho.thread, ho.bus⟩, hl.inserted,
      hw, hl.freed, hd, (by simp), (by simp), (by simp), hl.calls⟩
  | dispatch hp =>
    obtain ⟨b, rest, rfl, rfl, hrest⟩ := hl.current (by rw [hp]; rfl)
    have hcall := (ho.bus.full b List.mem_cons_self).processMsg
    rw [hp] at hw hd
    refine ⟨own, free, done, b :: rest, ⟨ho.wf, ho.live, ho.pool, ho.thread, ho.bus⟩, hl.inserted,
      hw, hl.freed, ?_, (by simp), (by simp), (by simp), hl.calls⟩
    simp only [hd, hcall, Popper.calls]
    simp [Block.dispatch]
  | free hp hf =>
    obtain ⟨b, rest, rfl, rfl, hrest⟩ := hl.current (by rw [hp]; rfl)
    obtain ⟨m, g, hfree, hg, own', free', ho'⟩ := ho.release
    obtain ⟨rfl, rfl⟩ := by simpa using hf.symm.trans hfree
    rw [hp] at hd
    have hdone : done ++ [b] ++ rest = done ++ b :: rest := by simp
    refine ⟨own', free', done ++ [b], rest, ⟨ho'.wf, ho'.live, ho'.pool, ho'.thread, ho'.bus⟩,
      ?_, ?_, ?_, ?_, ?_, ?_, ?_, hl.calls⟩
    · rw [hdone]
      exact hl.inserted
    · dsimp only
      rw [hg, ← hrest]
      split_ifs <;> rfl
    · simp [hl.freed]
    · dsimp only
      rw [hd]
      split_ifs <;> simp [Popper.calls]
    · dsimp only
      split_ifs with hq
      · exact fun _ => hq
      · simp
    · dsimp only
      split_ifs with hq
      · simp
      · exact fun _ => hq
    · dsimp only
      split_ifs <;> simp
  | abort habort =>
    rcases habort with ⟨hp, hq⟩ | ⟨hdr, hp, hf⟩
    · exact absurd hq (hl.popping hp)
    · obtain ⟨b, rest, rfl, rfl, -⟩ := hl.current (by rw [hp]; rfl)
      obtain ⟨m, g, hfree, -⟩ := ho.release
      rw [hf] at hfree
      exact absurd hfree (by simp)

theorem BusInv.alive (h : BusInv s) : s.logic ≠ .abort := by
  obtain ⟨own, free, done, bus, -, hl⟩ := h.inv
  exact hl.alive

theorem BusInv.step (e : BusEvent) (s t : MessageBus) (h : BusInv s)
    (hs : MessageBus.step e s = some t) : BusInv t := by
  cases e with
  | call i msg =>
    simp only [MessageBus.step] at hs
    cases hth : s.threads i with
    | idle =>
      rw [hth] at hs
      obtain rfl := Option.some.inj hs
      exact h.call hth
    | _ =>
      rw [hth] at hs
      exact nomatch hs
  | push i a => exact h.pushMsg hs
  | logic => exact h.processMsg hs

theorem busInv_run {es : List BusEvent}
    (h : Transition.run MessageBus.step es MessageBus.Init = some s) : BusInv s :=
  Transition.run_preserves BusInv.step busInv_start h

end

end RgcFifa
