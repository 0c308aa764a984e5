import RgcFifa.BusRun

/-! Every message pushed to the bus is dispatched once, in the order of insertion,
and its block is its own until it is freed after the dispatch. -/

namespace RgcFifa

open ByteWords

def Inserted.dispatch (e : Inserted) : ℕ × Option LogicCall :=
  (e.buffer, some (e.msg.hdr.call e.msg.msgBody))

def Popper.pending : Popper → List ℕ
  | .dispatch hdr => [hdr]
  | _ => []

/-- Who uses a block: a thread that is pushing, or the message inserted as number `k`. -/
inductive User where
  | thread (i : ℕ)
  | message (k : ℕ)

/-- The memory in use, from the size word of a block on; a freed block is not in use. -/
def MessageBus.uses (s : MessageBus) : User → Option (ℕ × ℕ)
  | .thread i => (s.threads i).block.map fun b => (b.2.1 - sizeofSizeT, b.1.size)
  | .message k =>
      if k < s.freed.length then none
      else s.inserted[k]?.map fun e => (e.buffer - sizeofSizeT, e.msg.size)

structure ExactlyOnce (s : MessageBus) : Prop where
  /-- every call inserts its message once, and a thread's messages keep their order -/
  calls : ∀ i, s.callsOf i = s.insertedBy i ++ (s.threads i).msg.toList
  /-- the logic was called for the messages in the order of insertion, once for each -/
  dispatched : s.dispatched = (s.inserted.take s.dispatched.length).map Inserted.dispatch
  waiting : s.logic.pending ++ s.msgQueue ++ s.global.m_MsgQueue =
    (s.inserted.drop s.dispatched.length).map Inserted.buffer
  /-- the blocks were freed in that order, each after its dispatch -/
  freed : s.freed = (s.inserted.take s.freed.length).map Inserted.buffer
  freed_le : s.freed.length ≤ s.dispatched.length
  intact : ∀ k e, s.freed.length ≤ k → s.inserted[k]? = some e →
    s.mem.read e.buffer (e.msg.hdr.sizeof + e.msg.msgBody.length) =
      e.msg.hdr.toBytes ++ e.msg.msgBody
  allocated : ∀ u c, s.uses u = some c →
    ∃ d ∈ s.mem.chunks, d.1 ≤ c.1 ∧ c.1 + c.2 ≤ d.1 + d.2
  apart : ∀ u v c d, u ≠ v → s.uses u = some c → s.uses v = some d → Memory.Apart c d
  pooled : ∀ i, ∃ free, FreeList.Chain s.mem (sizeofMemBlock + (s.global.m_Pools i).m_Size)
    (s.global.m_Pools i).m_pBlockList free ∧
    ∀ a ∈ free, ∀ u c, s.uses u = some c →
      Memory.Apart (a, sizeofMemBlock + (s.global.m_Pools i).m_Size) c
  popping : s.logic = .pop → s.msgQueue ≠ []
  alive : s.logic ≠ .abort

def User.holder : User → Holder
  | .thread i => .thread i
  | .message _ => .bus

section

variable {own : ℕ → Option Holder} {free : Fin MEMPOOL_NUM → List ℕ} {done bus : List Block}
  {s t : MessageBus} {i a : ℕ}

theorem Logs.length_freed (h : Logs done bus s) : s.freed.length = done.length := by
  rw [h.freed, List.length_map]

theorem Logs.length_inserted (h : Logs done bus s) :
    s.inserted.length = done.length + bus.length := by
  have hlen := congrArg List.length h.inserted
  simpa using hlen

theorem Logs.length_dispatched (h : Logs done bus s) :
    s.dispatched.length = done.length + s.logic.calls := by
  rw [h.dispatched, List.length_map, List.length_append, List.length_take,
    min_eq_left h.calls_le]

theorem Logs.block (h : Logs done bus s) {k : ℕ} {e : Inserted} (hk : s.freed.length ≤ k)
    (he : s.inserted[k]? = some e) :
    ∃ b, bus[k - done.length]? = some b ∧ b.msg = e.msg ∧ b.buffer = e.buffer := by
  rw [h.length_freed] at hk
  have hget := congrArg (·[k]?) h.inserted
  simp only [List.getElem?_map, he, List.getElem?_append_right hk, Option.map_some] at hget
  obtain ⟨b, hb, heq⟩ := Option.map_eq_some_iff.mp hget.symm
  obtain ⟨hmsg, hbuf⟩ := Prod.mk.inj heq
  exact ⟨b, hb, hmsg, hbuf⟩

theorem Logs.map_take {β : Type*} (h : Logs done bus s) (f : PushMsg × ℕ → β) (n : ℕ) :
    (s.inserted.take n).map (fun e => f (e.msg, e.buffer)) =
      ((done ++ bus).take n).map fun b => f (b.msg, b.buffer) := by
  have htake := congrArg (fun l => (l.take n).map f) h.inserted
  simp only [← List.map_take, List.map_map] at htake
  exact htake

theorem Logs.map_drop {β : Type*} (h : Logs done bus s) (f : PushMsg × ℕ → β) (n : ℕ) :
    (s.inserted.drop n).map (fun e => f (e.msg, e.buffer)) =
      ((done ++ bus).drop n).map fun b => f (b.msg, b.buffer) := by
  have hdrop := congrArg (fun l => (l.drop n).map f) h.inserted
  simp only [← List.map_drop, List.map_map] at hdrop
  exact hdrop

theorem Logs.dispatched_eq (h : Logs done bus s) :
    s.dispatched = (s.inserted.take s.dispatched.length).map Inserted.dispatch := by
  have hmap := h.map_take (fun p => (p.2, some (p.1.hdr.call p.1.msgBody))) s.dispatched.length
  rw [h.length_dispatched, List.take_length_add_append] at hmap
  rw [h.length_dispatched]
  exact h.dispatched.trans hmap.symm

theorem Logs.freed_eq (h : Logs done bus s) :
    s.freed = (s.inserted.take s.freed.length).map Inserted.buffer := by
  have hmap := h.map_take Prod.snd s.freed.length
  rw [h.length_freed, List.take_left] at hmap
  rw [h.length_freed]
  exact h.freed.trans hmap.symm

theorem Logs.waiting_eq (h : Logs done bus s) :
    s.logic.pending ++ s.msgQueue ++ s.global.m_MsgQueue =
      (s.inserted.drop s.dispatched.length).map Inserted.buffer := by
  have hmap := h.map_drop Prod.snd s.dispatched.length
  rw [h.length_dispatched, List.drop_length_add_append] at hmap
  rw [h.length_dispatched]
  refine Eq.trans ?_ hmap.symm
  have hw := h.waiting
  cases hp : s.logic with
  | free hdr =>
    obtain ⟨b, rest, rfl, rfl, hrest⟩ := h.current (by rw [hp]; rfl)
    exact hrest
  | _ =>
    rw [hp] at hw
    exact hw

theorem uses_owned {u : User} {c : ℕ × ℕ} (ho : Owned own free bus s) (hl : Logs done bus s)
    (hu : s.uses u = some c) :
    ∃ base n, own base = some u.holder ∧ (base, n) ∈ s.mem.chunks ∧ base ≤ c.1 ∧
      c.1 + c.2 ≤ base + n ∧
      ∀ k, u = .message k → done.length ≤ k ∧
        (bus.map Block.base)[k - done.length]? = some base := by
  cases u with
  | thread i =>
    obtain ⟨⟨msg, buffer, bs⟩, hb, rfl⟩ := Option.map_eq_some_iff.mp hu
    obtain ⟨base, hown, rfl, hold⟩ := (ho.thread i).block msg buffer bs hb
    have hfits := block_fits msg.size
    refine ⟨base, _, hown, hold.live, ?_, ?_, (fun k hk => nomatch hk)⟩
    · simp only [Block.buffer, Block.ptr]
      omega
    · simp only [Block.buffer, Block.ptr]
      omega
  | message k =>
    simp only [MessageBus.uses] at hu
    split_ifs at hu with hk
    obtain ⟨e, he, rfl⟩ := Option.map_eq_some_iff.mp hu
    obtain ⟨b, hb, hmsg, hbuf⟩ := hl.block (not_lt.mp hk) he
    have hmem := List.mem_of_getElem? hb
    have hfits := block_fits b.msg.size
    refine ⟨b.base, _, ho.bus.owned b hmem, (ho.bus.full b hmem).live, ?_, ?_, ?_⟩
    · rw [← hbuf]
      simp only [Block.buffer, Block.ptr]
      omega
    · rw [← hbuf, ← hmsg]
      simp only [Block.buffer, Block.ptr]
      omega
    · rintro k' ⟨⟩
      rw [hl.length_freed] at hk
      exact ⟨not_lt.mp hk, by rw [List.getElem?_map, hb]; rfl⟩

theorem apart_of_owned {a b n k : ℕ} {c d : ℕ × ℕ} (hw : s.mem.WellFormed)
    (ha : (a, n) ∈ s.mem.chunks) (hb : (b, k) ∈ s.mem.chunks) (hne : a ≠ b)
    (hc : a ≤ c.1 ∧ c.1 + c.2 ≤ a + n) (hd : b ≤ d.1 ∧ d.1 + d.2 ≤ b + k) :
    Memory.Apart c d := by
  have hap := hw.apart_of_ne ha hb hne
  simp only [Memory.Apart] at hap ⊢
  omega

/-- Two users have different chunks: the owner of a chunk is one, and the bus holds none twice. -/
theorem uses_apart {u v : User} {c d : ℕ × ℕ} (ho : Owned own free bus s) (hl : Logs done bus s)
    (hne : u ≠ v) (hu : s.uses u = some c) (hv : s.uses v = some d) : Memory.Apart c d := by
  obtain ⟨a, n, hown, hlive, hlo, hhi, hk⟩ := uses_owned ho hl hu
  obtain ⟨b, k, hown', hlive', hlo', hhi', hk'⟩ := uses_owned ho hl hv
  refine apart_of_owned ho.wf hlive hlive' ?_ ⟨hlo, hhi⟩ ⟨hlo', hhi'⟩
  rintro rfl
  have hholder : u.holder = v.holder := by
    rw [hown] at hown'
    exact Option.some.inj hown'
  cases u with
  | thread i =>
    cases v with
    | thread j => exact hne (by rw [Holder.thread.inj hholder])
    | message l => exact nomatch hholder
  | message l =>
    cases v with
    | thread j => exact nomatch hholder
    | message l' =>
      obtain ⟨hle, hbase⟩ := hk l rfl
      obtain ⟨hle', hbase'⟩ := hk' l' rfl
      have hlt := List.getElem?_eq_some_iff.mp hbase |>.1
      have hsame := (List.getElem?_inj hlt ho.bus.nodup).mp (hbase.trans hbase'.symm)
      exact hne (by congr; omega)

theorem pool_apart {j : Fin MEMPOOL_NUM} {u : User} {c : ℕ × ℕ} (ho : Owned own free bus s)
    (hl : Logs done bus s) (ha : a ∈ free j) (hu : s.uses u = some c) :
    Memory.Apart (a, sizeofMemBlock + MIN_MEMBLOCK_SIZE * 2 ^ (j : ℕ)) c := by
  obtain ⟨b, k, hown, hlive, hlo, hhi, -⟩ := uses_owned ho hl hu
  have hpool := (ho.pool j).owned a ha
  refine apart_of_owned ho.wf ((ho.pool j).chain.live ha) hlive ?_ ⟨le_rfl, le_rfl⟩ ⟨hlo, hhi⟩
  rintro rfl
  rw [hpool] at hown
  cases u with
  | thread i => exact nomatch hown
  | message l => exact nomatch hown

theorem BusInv.exactlyOnce (h : BusInv s) : ExactlyOnce s := by
  obtain ⟨own, free, done, bus, ho, hl⟩ := h.inv
  refine ⟨hl.calls, hl.dispatched_eq, hl.waiting_eq, hl.freed_eq, ?_, ?_, ?_,
    fun u v c d hne => uses_apart ho hl hne, ?_, hl.popping, hl.alive⟩
  · rw [hl.length_freed, hl.length_dispatched]
    omega
  · intro k e hk he
    obtain ⟨b, hb, hmsg, hbuf⟩ := hl.block hk he
    have hfull := (Memory.holds_append.mp (ho.bus.full b (List.mem_of_getElem? hb))).2
    have hread := hfull.read_eq
    rw [PushMsg.sizeWord, length_le, List.length_append, MsgHdrType.length_toBytes,
      ← Nat.add_assoc] at hread
    rw [← hmsg, ← hbuf]
    exact hread
  · intro u c hu
    obtain ⟨b, k, -, hlive, hlo, hhi, -⟩ := uses_owned ho hl hu
    exact ⟨(b, k), hlive, hlo, hhi⟩
  · intro j
    rw [s.global.poolSize_eq]
    exact ⟨free j, (ho.pool j).chain, fun a ha u c hu => pool_apart ho hl ha hu⟩

theorem pushMsg_logs (hs : s.pushMsg i a = some t) :
    t.logic = s.logic ∧ t.freed = s.freed ∧ t.dispatched = s.dispatched ∧
      (t.inserted = s.inserted ∨ ∃ e, t.inserted = s.inserted ++ [e]) := by
  cases pushMsg_cases hs with
  | insert => exact ⟨rfl, rfl, rfl, .inr ⟨_, rfl⟩⟩
  | _ => exact ⟨rfl, rfl, rfl, .inl rfl⟩

def Popper.phase : Popper → ℕ
  | .pop => 1
  | .dispatch _ => 2
  | .free _ => 3
  | _ => 0

/-- The steps of the logic thread until the first `n` messages are freed, at most. -/
def MessageBus.left (n : ℕ) (s : MessageBus) : ℕ :=
  4 * (n - s.freed.length) - s.logic.phase

def BusEvent.isLogic : BusEvent → Bool
  | .logic => true
  | _ => false

theorem BusInv.processMsg_left {n : ℕ} (h : BusInv s) (hn : n ≤ s.inserted.length)
    (hs : s.processMsg = some t) : t.inserted = s.inserted ∧ t.left n ≤ s.left n - 1 := by
  obtain ⟨own, free, done, bus, ho, hl⟩ := h.inv
  cases processMsg_cases hs with
  | wait hp hq =>
    have hw := hl.waiting
    have hlen := hl.length_inserted
    rw [hp, hl.idle hp, hq] at hw
    have hbus : bus = [] := List.map_eq_nil_iff.mp hw.symm
    rw [hbus, List.length_nil, ← hl.length_freed] at hlen
    exact ⟨rfl, by simp only [MessageBus.left]; omega⟩
  | free hp =>
    refine ⟨rfl, ?_⟩
    simp only [MessageBus.left, hp, Popper.phase, List.length_append, List.length_singleton]
    omega
  | abort => exact absurd rfl (h.processMsg hs).alive
  | _ hp =>
    exact ⟨rfl, by simp only [MessageBus.left, hp, Popper.phase]; omega⟩

theorem BusInv.step_left {n : ℕ} (e : BusEvent) (h : BusInv s) (hn : n ≤ s.inserted.length)
    (hs : MessageBus.step e s = some t) :
    s.inserted <+: t.inserted ∧ t.left n ≤ s.left n ∧ (e.isLogic → t.left n ≤ s.left n - 1) := by
  cases e with
  | call i msg =>
    simp only [MessageBus.step] at hs
    split at hs
    · obtain rfl := Option.some.inj hs
      exact ⟨List.prefix_rfl, le_rfl, by simp [BusEvent.isLogic]⟩
    · exact absurd hs (by simp)
  | push i a =>
    obtain ⟨hlogic, hfreed, -, hin⟩ := pushMsg_logs hs
    have hleft : t.left n = s.left n := by rw [MessageBus.left, MessageBus.left, hlogic, hfreed]
    refine ⟨?_, hleft.le, by simp [BusEvent.isLogic]⟩
    rcases hin with hin | ⟨e, hin⟩
    · rw [hin]
    · exact ⟨[e], hin.symm⟩
  | logic =>
    obtain ⟨hin, hleft⟩ := h.processMsg_left hn hs
    exact ⟨by rw [hin], by omega, fun _ => hleft⟩

theorem BusInv.logic_enabled (h : BusInv s) : ∃ t, MessageBus.step .logic s = some t := by
  obtain ⟨own, free, done, bus, ho, hl⟩ := h.inv
  simp only [MessageBus.step]
  unfold MessageBus.processMsg
  cases hp : s.logic with
  | getMsgQueue =>
    dsimp only
    split_ifs
    · exact ⟨_, rfl⟩
    · exact ⟨_, rfl⟩
  | pop =>
    dsimp only
    cases s.msgQueue with
    | nil => exact ⟨_, rfl⟩
    | cons hdr rest => exact ⟨_, rfl⟩
  | dispatch hdr => exact ⟨_, rfl⟩
  | free hdr =>
    dsimp only
    cases s.freeMsgBlock hdr with
    | none => exact ⟨_, rfl⟩
    | some t => exact ⟨_, rfl⟩
  | abort => exact absurd hp hl.alive

theorem BusInv.run_inserted {es : List BusEvent} (h : BusInv s)
    (hr : Transition.run MessageBus.step es s = some t) : s.inserted <+: t.inserted := by
  have hkeep := Transition.run_preserves (I := fun u => BusInv u ∧ s.inserted <+: u.inserted)
    ?_ ⟨h, List.prefix_rfl⟩ hr
  · exact hkeep.2
  · rintro e u v ⟨hu, hpre⟩ hv
    exact ⟨hu.step e u v hv, hpre.trans (hu.step_left e (Nat.zero_le _) hv).1⟩

theorem BusInv.all_freed {es : List BusEvent} (h : BusInv s)
    (hr : Transition.run MessageBus.step es s = some t)
    (hcount : 4 * s.inserted.length ≤ es.countP BusEvent.isLogic) :
    s.inserted.length ≤ t.freed.length := by
  have hleft : s.left s.inserted.length ≤ es.countP BusEvent.isLogic := by
    rw [MessageBus.left]
    omega
  have hzero := Transition.run_measure (I := fun u => BusInv u ∧ s.inserted.length ≤ u.inserted.length)
    (μ := MessageBus.left s.inserted.length) (p := BusEvent.isLogic) ?_ ⟨h, le_rfl⟩ hr hleft
  · have hphase : t.logic.phase ≤ 3 := by
      cases t.logic <;> simp [Popper.phase]
    rw [MessageBus.left] at hzero
    omega
  · rintro e u v ⟨hu, hn⟩ hv
    obtain ⟨hpre, hmono, hdown⟩ := hu.step_left e hn hv
    exact ⟨⟨hu.step e u v hv, hn.trans hpre.length_le⟩, hmono, hdown⟩

/-- The bus does what it is for: every message of a run is dispatched once and in order, with
its own header and body, from a block that nobody else uses before it is freed. -/
theorem message_bus_exactly_once {es : List BusEvent}
    (h : Transition.run MessageBus.step es MessageBus.Init = some s) :
    ExactlyOnce s ∧ (∃ t, MessageBus.step .logic s = some t) ∧
      ∀ fs t, Transition.run MessageBus.step fs s = some t → s.inserted <+: t.inserted ∧
        (4 * s.inserted.length ≤ fs.countP BusEvent.isLogic →
          s.inserted.length ≤ t.freed.length) :=
  have hs := busInv_run h
  ⟨hs.exactlyOnce, hs.logic_enabled, fun _ _ hr => ⟨hs.run_inserted hr, hs.all_freed hr⟩⟩

def clientCall : PushMsg where
  hdr := .client ⟨⟨CLIENT_MSGTYPE, 7, 2, 5⟩⟩
  msgBody := [1, 2]
  fits := ⟨by decide, rfl⟩
  int_le := by decide
  int_lt := by decide

def proxyCall : PushMsg where
  hdr := .proxy ⟨⟨PROXY_MSGTYPE, 8, 1, -1⟩, 1, 2, 3, 4⟩
  msgBody := [9]
  fits := ⟨by decide, .inr rfl⟩
  int_le := by decide
  int_lt := by decide

/-- Two threads push at the same time; the first of them pushes again when one block
is freed, and gets that block. -/
def twoThreads : List BusEvent :=
  [.call 0 clientCall, .call 1 proxyCall, .push 0 0, .push 1 0, .push 0 1000, .push 1 2000,
    .push 1 0, .push 0 0, .push 1 0, .push 1 0, .push 1 0, .push 0 0, .logic, .logic, .push 0 0,
    .push 0 0, .logic, .logic, .call 0 proxyCall, .push 0 0, .push 0 0, .logic, .push 0 0,
    .push 0 0, .push 0 0]

def drains : List BusEvent := List.replicate 12 .logic

theorem message_bus_two_threads :
    ∃ s t, Transition.run MessageBus.step twoThreads MessageBus.Init = some s ∧
      Transition.run MessageBus.step drains s = some t ∧
      t.dispatched = [(2016, some (.processProxyLogic 8 [9] 1 1 2 3 4 (-1))),
        (1016, some (.processLogic 7 [1, 2] 2 5)),
        (2016, some (.processProxyLogic 8 [9] 1 1 2 3 4 (-1)))] ∧
      ExactlyOnce s ∧ s.inserted.length ≤ t.freed.length := by
  obtain ⟨s, hr, hlen, hany⟩ := Transition.exists_run MessageBus.step twoThreads MessageBus.Init
    (fun s => s.inserted.length = 3 ∧ (Transition.run MessageBus.step drains s).any fun t =>
      t.dispatched = [(2016, some (.processProxyLogic 8 [9] 1 1 2 3 4 (-1))),
        (1016, some (.processLogic 7 [1, 2] 2 5)),
        (2016, some (.processProxyLogic 8 [9] 1 1 2 3 4 (-1)))]) (by decide)
  obtain ⟨t, ht, hd⟩ := (Option.any_eq_true ..).mp hany
  have hbus := message_bus_exactly_once hr
  exact ⟨s, t, hr, ht, of_decide_eq_true hd, hbus.1,
    (hbus.2.2 drains t ht).2 (by rw [hlen]; decide)⟩

def MessageBus.queue (s : MessageBus) : List MsgBlock :=
  (s.inserted.drop s.dispatched.length).map fun e => e.msg.hdr.block e.msg.msgBody

theorem Logs.queue_eq (h : Logs done bus s) :
    s.queue = (bus.drop s.logic.calls).map fun b => b.msg.hdr.block b.msg.msgBody := by
  have hmap := h.map_drop (fun p => p.1.hdr.block p.1.msgBody) s.dispatched.length
  rw [h.length_dispatched, List.drop_length_add_append] at hmap
  rw [MessageBus.queue, h.length_dispatched]
  exact hmap

theorem BusInv.queue_processMsg (h : BusInv s) (hs : s.processMsg = some t) :
    (t.queue = s.queue ∧ t.dispatched = s.dispatched) ∨
      ∃ b hdr, s.queue = b :: t.queue ∧ t.dispatched = s.dispatched ++ [(hdr, b.processMsg)] := by
  obtain ⟨own, free, done, bus, ho, hl⟩ := h.inv
  cases processMsg_cases hs with
  | dispatch hp =>
    obtain ⟨b, rest, rfl, rfl, -⟩ := hl.current (by rw [hp]; rfl)
    have hq := hl.queue_eq
    have hcall := (ho.bus.full b List.mem_cons_self).processMsg
    rw [← processMsg_block b.msg.fits] at hcall
    rw [hp] at hq
    refine .inr ⟨b.msg.hdr.block b.msg.msgBody, b.buffer, ?_, by rw [hcall]⟩
    have htail : (s.inserted.drop (s.dispatched.length + 1)).map
        (fun e => e.msg.hdr.block e.msg.msgBody) = s.queue.tail := by
      rw [MessageBus.queue, ← List.map_tail, List.tail_drop]
    simp only [MessageBus.queue, List.length_append, List.length_singleton] at htail ⊢
    rw [htail]
    rw [MessageBus.queue] at hq
    rw [hq]
    rfl
  | _ => exact .inl ⟨rfl, rfl⟩

/-- The bus is a queue of `MsgBlock`: a step leaves it as it is, puts a message at its
end, or takes the first message and makes the call for it. -/
theorem BusInv.queue_step {e : BusEvent} (h : BusInv s) (hs : MessageBus.step e s = some t) :
    (t.queue = s.queue ∧ t.dispatched = s.dispatched) ∨
      (∃ msg : PushMsg, t.queue = s.queue ++ [msg.hdr.block msg.msgBody] ∧
        t.dispatched = s.dispatched) ∨
      ∃ b hdr, s.queue = b :: t.queue ∧ t.dispatched = s.dispatched ++ [(hdr, b.processMsg)] := by
  obtain ⟨own, free, done, bus, ho, hl⟩ := h.inv
  have hlen : s.dispatched.length ≤ s.inserted.length := by
    have hcalls := hl.calls_le
    rw [hl.length_inserted, hl.length_dispatched]
    omega
  cases e with
  | call i msg =>
    simp only [MessageBus.step] at hs
    split at hs
    · obtain rfl := Option.some.inj hs
      exact .inl ⟨rfl, rfl⟩
    · exact absurd hs (by simp)
  | push i a =>
    obtain ⟨-, -, hd, hin | ⟨e, hin⟩⟩ := pushMsg_logs hs
    · exact .inl ⟨by simp only [MessageBus.queue, hd, hin], hd⟩
    · refine .inr (.inl ⟨e.msg, ?_, hd⟩)
      simp only [MessageBus.queue, hd, hin, List.drop_append_of_le_length hlen, List.map_append,
        List.map_cons, List.map_nil]
  | logic =>
    rcases h.queue_processMsg hs with hsame | hpop
    · exact .inl hsame
    · exact .inr (.inr hpop)

end

end RgcFifa
