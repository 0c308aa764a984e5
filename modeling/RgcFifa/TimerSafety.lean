import RgcFifa.Lib.Faulting
import RgcFifa.Lib.Transition
import RgcFifa.Runner

/-! The timers of a `WorkerRunner`: what its map, the events and the `TimerEvent`s have to do with
each other through every callback. -/

namespace RgcFifa

open Faulting

namespace Runner

/-- An event and a `TimerEvent` that point to each other. -/
def Linked (ev te : ℕ) (s : Runner) : Prop :=
  ∃ e t, s.eventMem.cells ev = some e ∧ e.arg = te ∧
    s.timerMem.cells te = some t ∧ t.ev = some ev

/-- Events and `TimerEvent`s come in pairs, and the map has all pairs but those of the timers that
are just being added. -/
structure Paired (starting : List ℕ) (s : Runner) : Prop where
  event : ∀ ev e, s.eventMem.cells ev = some e → s.Linked ev e.arg
  timer : ∀ te t, s.timerMem.cells te = some t → ∃ ev, s.Linked ev te
  map : ∀ ev te, s.events[ev]? = some te ↔ s.Linked ev te ∧ ev ∉ starting
  starting : ∀ ev ∈ starting, ∃ te, s.Linked ev te
  eventMem : s.eventMem.Balanced
  timerMem : s.timerMem.Balanced

variable {s t u : Runner} {starting : List ℕ} {ev te : ℕ}

theorem Linked.unique {te' : ℕ} (h : s.Linked ev te) (h' : s.Linked ev te') : te = te' := by
  obtain ⟨e, _, he, rfl, _⟩ := h
  obtain ⟨e', _, he', rfl, _⟩ := h'
  rw [Option.some.inj (he.symm.trans he')]

theorem Linked.unique_event {ev' : ℕ} (h : s.Linked ev te) (h' : s.Linked ev' te) : ev = ev' := by
  obtain ⟨_, t, _, _, ht, hev⟩ := h
  obtain ⟨_, t', _, _, ht', hev'⟩ := h'
  rw [Option.some.inj (ht.symm.trans ht')] at hev
  exact Option.some.inj (hev.symm.trans hev')

theorem paired_start (tv : UInt32) : (start tv).Paired [] where
  event _ _ h := nomatch h
  timer _ _ h := nomatch h
  map ev te := by
    simp [start, Linked, Arena.empty]
  starting _ h := nomatch h
  eventMem := Arena.balanced_empty
  timerMem := Arena.balanced_empty

section Steps

theorem Paired.congr (h : s.Paired starting) (he : t.eventMem.cells = s.eventMem.cells)
    (ht : t.timerMem.cells = s.timerMem.cells) (hmap : t.events = s.events)
    (hbe : t.eventMem.Balanced) (hbt : t.timerMem.Balanced) : t.Paired starting := by
  have hlink : ∀ ev te, t.Linked ev te ↔ s.Linked ev te := by
    intro ev te
    simp only [Linked, he, ht]
  constructor
  · intro ev e hev
    rw [he] at hev
    exact (hlink _ _).mpr (h.event ev e hev)
  · intro te x hte
    rw [ht] at hte
    obtain ⟨ev, hev⟩ := h.timer te x hte
    exact ⟨ev, (hlink _ _).mpr hev⟩
  · intro ev te
    rw [hmap, hlink]
    exact h.map ev te
  · intro ev hin
    obtain ⟨te, hte⟩ := h.starting ev hin
    exact ⟨te, (hlink ev te).mpr hte⟩
  · exact hbe
  · exact hbt

theorem Linked.old {ev' te' : ℕ} (h : s.Linked ev' te') (hev : s.eventMem.cells ev = none)
    (hte : s.timerMem.cells te = none)
    (he : ∀ j, j ≠ ev → t.eventMem.cells j = s.eventMem.cells j)
    (hx : ∀ j, j ≠ te → t.timerMem.cells j = s.timerMem.cells j) :
    ev' ≠ ev ∧ te' ≠ te ∧ t.Linked ev' te' := by
  obtain ⟨e', x', he', harg', hx', hxev'⟩ := h
  have hne : ev' ≠ ev := by
    rintro rfl
    rw [hev] at he'
    cases he'
  have hne' : te' ≠ te := by
    rintro rfl
    rw [hte] at hx'
    cases hx'
  exact ⟨hne, hne', e', x', by rw [he _ hne, he'], harg', by rw [hx _ hne', hx'], hxev'⟩

/-- A new pair, which is not in the map yet. -/
theorem Paired.add (h : s.Paired starting) {e : Event} {x : TimerEvent}
    (hev : s.eventMem.cells ev = none) (hte : s.timerMem.cells te = none)
    (he : ∀ j, t.eventMem.cells j = if j = ev then some e else s.eventMem.cells j)
    (hx : ∀ j, t.timerMem.cells j = if j = te then some x else s.timerMem.cells j)
    (harg : e.arg = te) (hxev : x.ev = some ev) (hmap : t.events = s.events)
    (hbe : t.eventMem.Balanced) (hbt : t.timerMem.Balanced) :
    t.Paired (ev :: starting) ∧ t.Linked ev te := by
  have hnew : t.Linked ev te := ⟨e, x, by rw [he, if_pos rfl], harg, by rw [hx, if_pos rfl], hxev⟩
  have hold : ∀ {ev' te'}, s.Linked ev' te' → ev' ≠ ev ∧ te' ≠ te ∧ t.Linked ev' te' :=
    fun hlink => hlink.old hev hte (fun j hj => by rw [he, if_neg hj])
      (fun j hj => by rw [hx, if_neg hj])
  refine ⟨⟨?_, ?_, ?_, ?_, hbe, hbt⟩, hnew⟩
  · intro ev' e' he'
    rw [he] at he'
    split_ifs at he' with heq
    · obtain rfl := Option.some.inj he'
      rw [heq, harg]
      exact hnew
    · exact (hold (h.event ev' e' he')).2.2
  · intro te' x' hx'
    rw [hx] at hx'
    split_ifs at hx' with heq
    · rw [heq]
      exact ⟨ev, hnew⟩
    · obtain ⟨ev', hlink⟩ := h.timer te' x' hx'
      exact ⟨ev', (hold hlink).2.2⟩
  · intro ev' te'
    rw [hmap, h.map]
    constructor
    · rintro ⟨hlink, hnot⟩
      obtain ⟨hne, _, hlink'⟩ := hold hlink
      exact ⟨hlink', by simp [hne, hnot]⟩
    · rintro ⟨hlink, hnot⟩
      rw [List.mem_cons, not_or] at hnot
      obtain ⟨e', x', he', rfl, hx', hxev'⟩ := hlink
      rw [he, if_neg hnot.1] at he'
      exact ⟨h.event ev' e' he', hnot.2⟩
  · intro ev' hin
    rcases List.mem_cons.mp hin with rfl | hin
    · exact ⟨te, hnew⟩
    · obtain ⟨te', hlink⟩ := h.starting ev' hin
      exact ⟨te', (hold hlink).2.2⟩

/-- The end of `AddTimer`. -/
theorem Paired.enter (h : s.Paired (ev :: starting)) (hlink : s.Linked ev te) (hnot : ev ∉ starting) :
    ({ s with events := s.events.insert ev te } : Runner).Paired starting := by
  refine ⟨h.event, h.timer, ?_, fun ev' hin => h.starting ev' (List.mem_cons_of_mem _ hin),
    h.eventMem, h.timerMem⟩
  intro ev' te'
  rw [Std.ExtTreeMap.getElem?_insert]
  split_ifs with heq
  · rw [Std.LawfulEqCmp.compare_eq_iff_eq] at heq
    subst heq
    constructor
    · intro he
      rw [← Option.some.inj he]
      exact ⟨hlink, hnot⟩
    · rintro ⟨hlink', _⟩
      rw [hlink.unique hlink']
  · rw [Std.LawfulEqCmp.compare_eq_iff_eq] at heq
    rw [h.map]
    apply and_congr_right
    intro _
    simp [Ne.symm heq]

/-- A pair goes, and its entry in the map. -/
def dropped (ev te : ℕ) (s : Runner) : Runner :=
  { s with
    events := s.events.erase ev
    eventMem := s.eventMem.release ev
    timerMem := s.timerMem.release te }

theorem Paired.drop (h : s.Paired starting) (hlink : s.Linked ev te) (hnot : ev ∉ starting) :
    (s.dropped ev te).Paired starting := by
  obtain ⟨e, x, he, harg, hx, hxev⟩ := hlink
  have hiff : ∀ ev' te', (s.dropped ev te).Linked ev' te' ↔
      s.Linked ev' te' ∧ ev' ≠ ev := by
    intro ev' te'
    constructor
    · rintro ⟨e', x', he', harg', hx', hxev'⟩
      rw [dropped, Arena.cells_release] at he' hx'
      split_ifs at he' hx' with hne hne'
      exact ⟨⟨e', x', he', harg', hx', hxev'⟩, hne⟩
    · rintro ⟨hlink', hne⟩
      have hne' : te' ≠ te := by
        rintro rfl
        exact hne (hlink'.unique_event ⟨e, x, he, harg, hx, hxev⟩)
      obtain ⟨e', x', he', harg', hx', hxev'⟩ := hlink'
      exact ⟨e', x', by rw [dropped, Arena.cells_release, if_neg hne, he'], harg',
        by rw [dropped, Arena.cells_release, if_neg hne', hx'], hxev'⟩
  refine ⟨?_, ?_, ?_, ?_, h.eventMem.release ⟨e, he⟩, h.timerMem.release ⟨x, hx⟩⟩
  · intro ev' e' he'
    rw [dropped, Arena.cells_release] at he'
    split_ifs at he' with hne
    exact (hiff _ _).mpr ⟨h.event ev' e' he', hne⟩
  · intro te' x' hx'
    rw [dropped, Arena.cells_release] at hx'
    split_ifs at hx' with hne
    obtain ⟨ev', hlink'⟩ := h.timer te' x' hx'
    refine ⟨ev', (hiff _ _).mpr ⟨hlink', ?_⟩⟩
    rintro rfl
    exact hne (hlink'.unique ⟨e, x, he, harg, hx, hxev⟩)
  · intro ev' te'
    rw [hiff, dropped, Std.ExtTreeMap.getElem?_erase]
    split_ifs with heq
    · rw [Std.LawfulEqCmp.compare_eq_iff_eq] at heq
      simp [heq]
    · rw [Std.LawfulEqCmp.compare_eq_iff_eq] at heq
      rw [h.map]
      simp [Ne.symm heq]
  · intro ev' hin
    obtain ⟨te', hlink'⟩ := h.starting ev' hin
    refine ⟨te', (hiff _ _).mpr ⟨hlink', ?_⟩⟩
    rintro rfl
    exact hnot hin

theorem linked_setEvent {e e' : Event} (he : s.eventMem.cells ev = some e) (harg : e'.arg = e.arg)
    (ev' te' : ℕ) : (s.setEvent ev e').Linked ev' te' ↔ s.Linked ev' te' := by
  simp only [Linked, setEvent, Arena.cells_set]
  by_cases hev : ev' = ev
  · subst hev
    simp [he, harg]
  · simp [hev]

theorem Paired.setEvent (h : s.Paired starting) {e e' : Event} (he : s.eventMem.cells ev = some e)
    (harg : e'.arg = e.arg) : (s.setEvent ev e').Paired starting := by
  have hiff := linked_setEvent he harg
  refine ⟨?_, ?_, ?_, ?_, h.eventMem.set ⟨e, he⟩ e', h.timerMem⟩
  · intro ev' d hd
    rw [hiff]
    rw [Runner.setEvent, Arena.cells_set] at hd
    split_ifs at hd with hev
    · rw [hev, ← Option.some.inj hd, harg]
      exact h.event ev e he
    · exact h.event ev' d hd
  · intro te' x hx
    obtain ⟨ev', hlink⟩ := h.timer te' x hx
    exact ⟨ev', (hiff _ _).mpr hlink⟩
  · intro ev' te'
    rw [hiff]
    exact h.map ev' te'
  · intro ev' hin
    obtain ⟨te', hlink⟩ := h.starting ev' hin
    exact ⟨te', (hiff _ _).mpr hlink⟩

end Steps

/-- What calls of `AddTimer` and `RemoveTimer` leave of the pairs: those are freed that are in the
map and `removes` names, the others stay. -/
structure Ran (removes : ℕ → Bool) (starting : List ℕ) (s t : Runner) : Prop where
  kept : ∀ ev te, s.Linked ev te → (removes ev = false ∨ ev ∈ starting) →
    t.eventMem.cells ev = s.eventMem.cells ev ∧ t.timerMem.cells te = s.timerMem.cells te
  gone : ∀ ev te, s.Linked ev te → removes ev = true → ev ∉ starting →
    t.timerMem.cells te = none
  next : s.timerMem.next ≤ t.timerMem.next
  dead : ∀ te < s.timerMem.next, s.timerMem.cells te = none → t.timerMem.cells te = none

theorem Ran.refl (starting : List ℕ) (s : Runner) : Ran (fun _ => false) starting s s where
  kept _ _ _ _ := ⟨rfl, rfl⟩
  gone _ _ _ h := nomatch h
  next := le_rfl
  dead _ _ h := h

theorem Ran.linked {removes : ℕ → Bool} (h : Ran removes starting s t) (hlink : s.Linked ev te)
    (hkept : removes ev = false ∨ ev ∈ starting) : t.Linked ev te := by
  obtain ⟨hev, hte⟩ := h.kept ev te hlink hkept
  obtain ⟨e, x, he, harg, hx, hxev⟩ := hlink
  exact ⟨e, x, hev.trans he, harg, hte.trans hx, hxev⟩

theorem Ran.trans {r r' : ℕ → Bool} (hs : s.Paired starting) (h : Ran r starting s t)
    (h' : Ran r' starting t u) : Ran (fun ev => r ev || r' ev) starting s u := by
  constructor
  · intro ev te hlink hkept
    have hkept₁ : r ev = false ∨ ev ∈ starting :=
      hkept.imp_left fun hr => (Bool.or_eq_false_iff.mp hr).1
    have hkept₂ : r' ev = false ∨ ev ∈ starting :=
      hkept.imp_left fun hr => (Bool.or_eq_false_iff.mp hr).2
    obtain ⟨hev, hte⟩ := h.kept ev te hlink hkept₁
    obtain ⟨hev', hte'⟩ := h'.kept ev te (h.linked hlink hkept₁) hkept₂
    exact ⟨hev'.trans hev, hte'.trans hte⟩
  · intro ev te hlink hr hnot
    by_cases hfirst : r ev = true
    · have hlink' := hlink
      obtain ⟨_, x, _, _, hx, _⟩ := hlink'
      have hlt := (hs.timerMem.live te x hx).1
      exact h'.dead te (lt_of_lt_of_le hlt h.next)
        (h.gone ev te hlink hfirst hnot)
    · rw [Bool.not_eq_true] at hfirst
      have hr' : r' ev = true := by simpa [hfirst] using hr
      exact h'.gone ev te (h.linked hlink (.inl hfirst)) hr' hnot
  · exact h.next.trans h'.next
  · intro te hlt hnone
    exact h'.dead te (lt_of_lt_of_le hlt h.next) (h.dead te hlt hnone)

/-- A callback that returns, whatever timers are just being added. -/
def Returns (removes : ℕ → Bool) (cb : RunnerCall) : Prop :=
  ∀ starting s, Paired starting s → ∃ t, cb s = .ok t ∧ t.Paired starting ∧ Ran removes starting s t

theorem returns_ok : Returns (fun _ => false) .ok :=
  fun starting s h => ⟨s, rfl, h, Ran.refl starting s⟩

section Calls

theorem atEvent_ok {e : Event} (h : s.eventMem.cells ev = some e) : s.atEvent ev = .ok e := by
  rw [atEvent, h]

theorem atTimer_ok {x : TimerEvent} (h : s.timerMem.cells te = some x) : s.atTimer te = .ok x := by
  rw [atTimer, h]

theorem atTimer_freed (h : s.timerMem.cells te = none) : s.atTimer te = .error .freed := by
  rw [atTimer, h]

/-- What `event_free` and `delete` leave. -/
def releaseEvent (ev : ℕ) (s : Runner) : Runner := { s with eventMem := s.eventMem.release ev }

def releaseTimer (te : ℕ) (s : Runner) : Runner := { s with timerMem := s.timerMem.release te }

theorem event_free_ok {e : Event} (h : s.eventMem.cells ev = some e) :
    s.event_free ev = .ok (s.releaseEvent ev) := by
  rw [event_free, atEvent_ok h]
  rfl

theorem deleteTimer_ok {x : TimerEvent} (h : s.timerMem.cells te = some x) :
    s.deleteTimer te = .ok (s.releaseTimer te) := by
  rw [deleteTimer, atTimer_ok h]
  rfl

theorem event_add_ok {e : Event} (h : s.eventMem.cells ev = some e) (ok : Bool)
    (tv : UInt32 × UInt32) : s.event_add ok ev tv =
      .ok (ok, if ok then s.setEvent ev { e with pending := some tv } else s) := by
  rw [event_add, atEvent_ok h]
  cases ok <;> rfl

theorem removeTimer_returns (h : s.Paired starting) (timer : ℕ) :
    ∃ p, s.removeTimer timer = .ok p ∧ p.2.Paired starting ∧
      Ran (· == timer) starting s p.2 := by
  rw [removeTimer]
  cases hmap : s.events[timer]? with
  | none =>
    refine ⟨(false, s), rfl, h, ?_⟩
    constructor
    · intro ev te _ _
      exact ⟨rfl, rfl⟩
    · intro ev te hlink hr hnot
      obtain rfl : ev = timer := eq_of_beq hr
      have hin := (h.map ev te).mpr ⟨hlink, hnot⟩
      rw [hmap] at hin
      cases hin
    · exact le_rfl
    · exact fun _ _ hnone => hnone
  | some te =>
    obtain ⟨hlink, hnot⟩ := (h.map timer te).mp hmap
    have hdrop := h.drop hlink hnot
    have hlink' := hlink
    obtain ⟨e, x, he, _, hx, _⟩ := hlink'
    have hx' : (s.releaseEvent timer).timerMem.cells te = some x := hx
    refine ⟨(true, s.dropped timer te), ?_, hdrop, ?_⟩
    · simp only [event_free_ok he]
      rw [ok_bind, deleteTimer_ok hx']
      rfl
    · constructor
      · intro ev' te' hlink' hkept
        have hne : ev' ≠ timer := by
          rintro rfl
          rcases hkept with hfalse | hin
          · rw [beq_self_eq_true] at hfalse
            cases hfalse
          · exact hnot hin
        have hne' : te' ≠ te := by
          rintro rfl
          exact hne (hlink'.unique_event hlink)
        simp [dropped, hne, hne']
      · intro ev' te' hlink' hr _
        obtain rfl : ev' = timer := eq_of_beq hr
        obtain rfl := hlink'.unique hlink
        simp [dropped]
      · exact le_rfl
      · intro te' _ hnone
        simp [dropped, hnone]

/-- `s` with the `TimerEvent` that `AddTimer` has just made. -/
def withTimer (interval : UInt32) (s : Runner) : Runner :=
  { s with timerMem := (s.timerMem.alloc ⟨none, interval⟩).2 }

/-- `AddTimer` has made an event as well, and lets it point to the `TimerEvent`. -/
def withEvent (interval : UInt32) (e : Event) (s : Runner) : Runner :=
  { s with
    eventMem := (s.eventMem.alloc e).2
    timerMem := (s.timerMem.alloc ⟨none, interval⟩).2.set s.timerMem.next
      ⟨some s.eventMem.next, interval⟩ }

theorem cells_withEvent_event (interval : UInt32) (e : Event) (s : Runner) (j : ℕ) :
    (s.withEvent interval e).eventMem.cells j =
      if j = s.eventMem.next then some e else s.eventMem.cells j := Arena.cells_alloc _ _ _

theorem cells_withEvent_timer (interval : UInt32) (e : Event) (s : Runner) (j : ℕ) :
    (s.withEvent interval e).timerMem.cells j =
      if j = s.timerMem.next then some ⟨some s.eventMem.next, interval⟩
      else s.timerMem.cells j := by
  rw [withEvent, Arena.cells_set, Arena.cells_alloc]
  split_ifs <;> rfl

theorem Paired.withEvent (h : s.Paired starting) (interval : UInt32) {e : Event}
    (harg : e.arg = s.timerMem.next) :
    (s.withEvent interval e).Paired (s.eventMem.next :: starting) ∧
      (s.withEvent interval e).Linked s.eventMem.next s.timerMem.next := by
  apply h.add h.eventMem.next_none h.timerMem.next_none (cells_withEvent_event interval e s)
    (cells_withEvent_timer interval e s) harg rfl rfl (h.eventMem.alloc e)
  apply (h.timerMem.alloc _).set
  exact ⟨_, by rw [Arena.cells_alloc, if_pos rfl]⟩

theorem Paired.starting_lt (h : s.Paired starting) : s.eventMem.next ∉ starting := by
  intro hin
  obtain ⟨_, e, _, he, _⟩ := h.starting _ hin
  exact lt_irrefl _ (h.eventMem.live _ e he).1

/-- Nothing but the names has been used up. -/
theorem Ran.of_cells (he : t.eventMem.cells = s.eventMem.cells)
    (hx : t.timerMem.cells = s.timerMem.cells) (hnext : s.timerMem.next ≤ t.timerMem.next) :
    Ran (fun _ => false) starting s t where
  kept _ _ _ _ := by rw [he, hx]; exact ⟨rfl, rfl⟩
  gone _ _ _ h := nomatch h
  next := hnext
  dead _ _ h := by rwa [hx]

theorem cells_undo {α : Type*} {m : Arena α} (hm : m.Balanced) (a : α) :
    ((m.alloc a).2.release m.next).cells = m.cells := by
  funext j
  rw [Arena.cells_release, Arena.cells_alloc]
  split_ifs with hj
  · rw [hj, hm.next_none]
  · rfl

/-- What a callback leaves that was called when a pair had been added. -/
theorem Ran.of_added {removes : ℕ → Bool} (h : Ran removes (ev :: starting) t u)
    (hev : s.eventMem.cells ev = none) (hte : s.timerMem.cells te = none)
    (he : ∀ j, j ≠ ev → t.eventMem.cells j = s.eventMem.cells j)
    (hx : ∀ j, j ≠ te → t.timerMem.cells j = s.timerMem.cells j)
    (hnext : s.timerMem.next ≤ t.timerMem.next) (hlt : s.timerMem.next ≤ te) :
    Ran removes starting s u := by
  have hold : ∀ {ev' te'}, s.Linked ev' te' → ev' ≠ ev ∧ te' ≠ te ∧ t.Linked ev' te' :=
    fun hlink => hlink.old hev hte he hx
  constructor
  · intro ev' te' hlink hkept
    obtain ⟨hne, hne', hlink'⟩ := hold hlink
    obtain ⟨hev', hte'⟩ := h.kept ev' te' hlink' (hkept.imp_right (List.mem_cons_of_mem _))
    exact ⟨hev'.trans (he _ hne), hte'.trans (hx _ hne')⟩
  · intro ev' te' hlink hr hnot
    obtain ⟨hne, _, hlink'⟩ := hold hlink
    exact h.gone ev' te' hlink' hr (by simp [hne, hnot])
  · exact hnext.trans h.next
  · intro te' hte' hnone
    have hne : te' ≠ te := by omega
    exact h.dead te' (lt_of_lt_of_le hte' hnext) (by rw [hx _ hne, hnone])

/-- The `TimerEvent` that `AddTimer` has made, before and after there is an event. -/
theorem cells_withTimer (interval : UInt32) (s : Runner) :
    (s.withTimer interval).timerMem.cells s.timerMem.next = some ⟨none, interval⟩ := by
  rw [withTimer, Arena.cells_alloc, if_pos rfl]

theorem cells_withEvent_release (h : s.Paired starting) (interval : UInt32) (e : Event) :
    ((s.withEvent interval e).timerMem.release s.timerMem.next).cells = s.timerMem.cells := by
  funext j
  rw [Arena.cells_release, cells_withEvent_timer]
  split_ifs with hj
  · rw [hj, h.timerMem.next_none]
  · rfl

/-- Without an event the `TimerEvent` is deleted again. -/
theorem addEvent_eventless (h : s.Paired starting) (cb : RunnerCall) (interval delay : UInt32)
    (persist : Bool) (callback : TimerCallback) {o : TimerCalls} (hevent : o.event = false) :
    ∃ p, (s.withTimer interval).addEvent delay persist callback o s.timerMem.next cb = .ok p ∧
      p.2.Paired starting ∧ Ran (fun _ => false) starting s p.2 := by
  have hnew := cells_withTimer interval s
  refine ⟨(none, (s.withTimer interval).releaseTimer s.timerMem.next), ?_, ?_, ?_⟩
  · simp only [addEvent, event_new, hevent, Bool.false_eq_true, if_false, deleteTimer_ok hnew,
      ok_bind]
  · exact h.congr rfl (cells_undo h.timerMem _) rfl h.eventMem
      ((h.timerMem.alloc ⟨none, interval⟩).release ⟨_, hnew⟩)
  · exact Ran.of_cells rfl (cells_undo h.timerMem _) (Nat.le_succ _)

/-- Up to `event_add` the pair is made. -/
theorem addEvent_made (cb : RunnerCall) (interval delay : UInt32) (persist : Bool)
    (callback : TimerCallback) {o : TimerCalls} (hevent : o.event = true) {e : Event}
    (he : (s.withEvent interval ⟨persist, callback, s.timerMem.next, none⟩).eventMem.cells
      s.eventMem.next = some e) :
    let t := s.withEvent interval ⟨persist, callback, s.timerMem.next, none⟩
    (s.withTimer interval).addEvent delay persist callback o s.timerMem.next cb =
      if o.add then (do
        let u ← cb (t.setEvent s.eventMem.next { e with pending := some (timeval delay) })
        .ok (some s.eventMem.next,
          { u with events := u.events.insert s.eventMem.next s.timerMem.next }))
      else (do
        let u ← t.event_free s.eventMem.next
        let u ← u.deleteTimer s.timerMem.next
        .ok (none, u)) := by
  have hmade : (s.withTimer interval).event_new true persist callback s.timerMem.next =
    (some s.eventMem.next, { s.withTimer interval with
      eventMem := (s.eventMem.alloc ⟨persist, callback, s.timerMem.next, none⟩).2 }) := rfl
  have htimer : ({ s.withTimer interval with
      eventMem := (s.eventMem.alloc ⟨persist, callback, s.timerMem.next, none⟩).2 } :
        Runner).timerMem.cells s.timerMem.next = some ⟨none, interval⟩ := cells_withTimer interval s
  have hpoint : ({ s.withTimer interval with
      eventMem := (s.eventMem.alloc ⟨persist, callback, s.timerMem.next, none⟩).2 } :
        Runner).setTimer s.timerMem.next ⟨some s.eventMem.next, interval⟩ =
    s.withEvent interval ⟨persist, callback, s.timerMem.next, none⟩ := rfl
  simp only [addEvent, hevent, hmade, atTimer_ok htimer, ok_bind, hpoint, event_add_ok he]
  cases o.add <;> rfl

/-- An event that cannot be added is freed with its `TimerEvent`. -/
theorem addEvent_unadded (h : s.Paired starting) (cb : RunnerCall) (interval delay : UInt32)
    (persist : Bool) (callback : TimerCallback) {o : TimerCalls} (hevent : o.event = true)
    (hadd : o.add = false) :
    ∃ p, (s.withTimer interval).addEvent delay persist callback o s.timerMem.next cb = .ok p ∧
      p.2.Paired starting ∧ Ran (fun _ => false) starting s p.2 := by
  obtain ⟨hpair, e, x, he, _, hx, _⟩ :=
    h.withEvent interval (e := ⟨persist, callback, s.timerMem.next, none⟩) rfl
  have hgone := cells_withEvent_release h interval ⟨persist, callback, s.timerMem.next, none⟩
  refine ⟨(none, ((s.withEvent interval
    ⟨persist, callback, s.timerMem.next, none⟩).releaseEvent s.eventMem.next).releaseTimer
      s.timerMem.next), ?_, ?_, ?_⟩
  · rw [addEvent_made cb interval delay persist callback hevent he, hadd]
    simp only [Bool.false_eq_true, if_false, event_free_ok he, ok_bind]
    rw [deleteTimer_ok (s := (s.withEvent interval _).releaseEvent _) hx]
    rfl
  · exact h.congr (cells_undo h.eventMem _) hgone rfl (h.eventMem.alloc _ |>.release ⟨e, he⟩)
      (hpair.timerMem.release ⟨x, hx⟩)
  · exact Ran.of_cells (cells_undo h.eventMem _) hgone (Nat.le_succ _)

/-- An event that is added goes into the map when the callback has returned. -/
theorem addEvent_added {removes : ℕ → Bool} {cb : RunnerCall} (h : s.Paired starting)
    (hcb : Returns removes cb) (interval delay : UInt32) (persist : Bool)
    (callback : TimerCallback) {o : TimerCalls} (hevent : o.event = true) (hadd : o.add = true) :
    ∃ p, (s.withTimer interval).addEvent delay persist callback o s.timerMem.next cb = .ok p ∧
      p.2.Paired starting ∧ Ran removes starting s p.2 := by
  obtain ⟨hpair, hlink⟩ :=
    h.withEvent interval (e := ⟨persist, callback, s.timerMem.next, none⟩) rfl
  have hlink₀ := hlink
  obtain ⟨e, x, he, harg, hx, _⟩ := hlink₀
  have harg' : ({ e with pending := some (timeval delay) } : Event).arg = e.arg := rfl
  obtain ⟨t, hrun, ht, hran⟩ := hcb _ _ (hpair.setEvent he harg')
  have hlink' := hran.linked ((linked_setEvent he harg' _ _).mpr hlink) (.inr List.mem_cons_self)
  refine ⟨(some s.eventMem.next, { t with
    events := t.events.insert s.eventMem.next s.timerMem.next }), ?_,
      ht.enter hlink' h.starting_lt, ?_⟩
  · rw [addEvent_made cb interval delay persist callback hevent he, hadd]
    simp only [if_true, hrun, ok_bind]
  · have hran' : Ran removes (s.eventMem.next :: starting) _ { t with
      events := t.events.insert s.eventMem.next s.timerMem.next } :=
        ⟨hran.kept, hran.gone, hran.next, hran.dead⟩
    apply hran'.of_added h.eventMem.next_none h.timerMem.next_none
    · intro j hj
      rw [setEvent, Arena.cells_set, if_neg hj, cells_withEvent_event, if_neg hj]
    · intro j hj
      exact (cells_withEvent_timer interval ⟨persist, callback, s.timerMem.next, none⟩ s j).trans
        (if_neg hj)
    · exact Nat.le_succ _
    · exact le_rfl

theorem addEvent_returns {removes : ℕ → Bool} {cb : RunnerCall} (h : s.Paired starting)
    (hcb : Returns removes cb) (interval delay : UInt32) (persist : Bool)
    (callback : TimerCallback) (o : TimerCalls) :
    ∃ p, (s.withTimer interval).addEvent delay persist callback o s.timerMem.next cb = .ok p ∧
      p.2.Paired starting ∧ Ran (fun ev => o.event && o.add && removes ev) starting s p.2 := by
  cases hevent : o.event with
  | false => exact addEvent_eventless h cb interval delay persist callback hevent
  | true =>
    cases hadd : o.add with
    | false => exact addEvent_unadded h cb interval delay persist callback hevent hadd
    | true => simpa using addEvent_added h hcb interval delay persist callback hevent hadd

/-- Only a timer that starts at once calls the callback, and only when it can be added. -/
theorem addTimer_returns {removes : ℕ → Bool} {cb : RunnerCall} (h : s.Paired starting)
    (hcb : Returns removes cb) (interval firstInterval : UInt32) (o : TimerCalls) :
    ∃ p, s.addTimer interval firstInterval o cb = .ok p ∧ p.2.Paired starting ∧
      Ran (fun ev => o.te && o.event && o.add && decide (firstInterval = 0) && removes ev)
        starting s p.2 := by
  cases hte : o.te with
  | false =>
    refine ⟨(none, s), ?_, h, ?_⟩
    · simp [addTimer, hte]
    · simp only [Bool.false_and]
      exact Ran.refl starting s
  | true =>
    have hmade : ∀ delay persist callback (cb : RunnerCall),
        addEvent delay persist callback o (s.timerMem.alloc ⟨none, interval⟩).1 cb
          { s with timerMem := (s.timerMem.alloc ⟨none, interval⟩).2 } =
        (s.withTimer interval).addEvent delay persist callback o s.timerMem.next cb :=
      fun _ _ _ _ => rfl
    by_cases hzero : firstInterval = 0
    · obtain ⟨p, hp, hpair, hran⟩ := addEvent_returns h hcb interval interval true .process o
      refine ⟨p, ?_, hpair, ?_⟩
      · simp only [addTimer, hte, hzero, if_true, true_or, hmade]
        exact hp
      · simpa [hzero] using hran
    · have hquiet : (fun ev => true && o.event && o.add && decide (firstInterval = 0) &&
          removes ev) = fun _ => false := by
        simp [hzero]
      rw [hquiet]
      by_cases hmax : firstInterval = 0xFFFFFFFF
      · obtain ⟨p, hp, hpair, hran⟩ :=
          addEvent_returns h returns_ok interval interval true .process o
        refine ⟨p, ?_, hpair, by simpa using hran⟩
        simp only [addTimer, hte, if_true, if_pos (Or.inr hmax), if_neg hzero, hmade]
        exact hp
      · obtain ⟨p, hp, hpair, hran⟩ :=
          addEvent_returns h returns_ok interval firstInterval false .firsttime o
        refine ⟨p, ?_, hpair, by simpa using hran⟩
        simp only [addTimer, hte, hzero, if_true, hmax, or_self, if_false, hmade]
        exact hp

end Calls

end Runner

open Runner

/-- Whether the script removes a timer that is in the map when it begins; a callback counts that
`AddTimer` calls itself. -/
def Script.removes : Script → ℕ → Bool
  | done, _ => false
  | addTimer _ firstInterval o body next, ev =>
      (o.te && o.event && o.add && decide (firstInterval = 0) && body.removes ev) ||
        next.removes ev
  | removeTimer timer next, ev => ev == timer || next.removes ev

theorem Script.exec_returns (sc : Script) : Returns sc.removes sc.exec := by
  induction sc with
  | done => exact returns_ok
  | addTimer interval firstInterval o body next hbody hnext =>
    intro starting s h
    obtain ⟨p, hp, hpair, hran⟩ := addTimer_returns h hbody interval firstInterval o
    obtain ⟨t, ht, hpair', hran'⟩ := hnext starting p.2 hpair
    refine ⟨t, ?_, hpair', hran.trans h hran'⟩
    rw [exec, hp]
    exact ht
  | removeTimer timer next hnext =>
    intro starting s h
    obtain ⟨p, hp, hpair, hran⟩ := removeTimer_returns h timer
    obtain ⟨t, ht, hpair', hran'⟩ := hnext starting p.2 hpair
    refine ⟨t, ?_, hpair', hran.trans h hran'⟩
    rw [exec, hp]
    exact ht

namespace Runner

section Expire

variable {s : Runner} {ev te : ℕ} {removes : ℕ → Bool} {cb : RunnerCall}

theorem event_del_ok {e : Event} (h : s.eventMem.cells ev = some e) :
    s.event_del ev = .ok (s.setEvent ev { e with pending := none }) := by
  rw [event_del, atEvent_ok h]
  rfl

theorem event_assign_ok {e : Event} (h : s.eventMem.cells ev = some e) (persist : Bool)
    (callback : TimerCallback) (te : ℕ) : s.event_assign ev persist callback te =
      .ok (s.setEvent ev ⟨persist, callback, te, none⟩) := by
  rw [event_assign, atEvent_ok h]
  rfl

theorem process_returns (h : s.Paired []) (hlink : s.Linked ev te) (hcb : Returns removes cb) :
    ∃ t, s.event_timer_process te cb = .ok t ∧ t.Paired [] := by
  obtain ⟨_, x, _, _, hx, _⟩ := hlink
  obtain ⟨t, ht, hpair, _⟩ := hcb [] s h
  refine ⟨t, ?_, hpair⟩
  rw [event_timer_process, atTimer_ok hx]
  exact ht

/-- What is done with a timer that could not be added again. -/
theorem drop_ok {e : Event} {x : TimerEvent} (he : s.eventMem.cells ev = some e)
    (hx : s.timerMem.cells te = some x) :
    (do
      let s ← { s with events := s.events.erase ev }.event_free ev
      s.deleteTimer te) = .ok (s.dropped ev te) := by
  have hfree : ({ s with events := s.events.erase ev } : Runner).event_free ev =
      .ok (({ s with events := s.events.erase ev } : Runner).releaseEvent ev) := event_free_ok he
  simp only [hfree, ok_bind]
  exact deleteTimer_ok hx

theorem cells_setEvent_self (ev : ℕ) (e : Event) (s : Runner) :
    (s.setEvent ev e).eventMem.cells ev = some e := by
  simp [setEvent]

/-- The rest of the first expiration, when the callback has left the timer. -/
theorem firsttime_returns (h : s.Paired []) (hlink : s.Linked ev te) (hcb : Returns removes cb)
    (hkept : removes ev = false) (ok : Bool) :
    ∃ t, s.event_timer_process_firsttime te cb ok = .ok t ∧ t.Paired [] := by
  obtain ⟨u, hu, hpair, hran⟩ := hcb [] s h
  have hlink' := hran.linked hlink (.inl hkept)
  obtain ⟨_, x, _, _, hx, _⟩ := hlink
  have hlink₀ := hlink'
  obtain ⟨e, y, he, harg, hy, hyev⟩ := hlink₀
  -- the event is written to twice before it is added again
  have harg₁ : ({ e with pending := none } : Event).arg = e.arg := rfl
  have harg₂ : (⟨true, .process, te, none⟩ : Event).arg = ({ e with pending := none } : Event).arg :=
    harg.symm
  have he₁ := cells_setEvent_self ev { e with pending := none } u
  have he₂ := cells_setEvent_self ev ⟨true, .process, te, none⟩
    (u.setEvent ev { e with pending := none })
  have hpair₂ := (hpair.setEvent he harg₁).setEvent he₁ harg₂
  have hlink₂ := (linked_setEvent he₁ harg₂ ev te).mpr
    ((linked_setEvent he harg₁ ev te).mpr hlink')
  cases ok with
  | true =>
    have harg₃ : (⟨true, .process, te, some (timeval y.interval)⟩ : Event).arg =
      (⟨true, .process, te, none⟩ : Event).arg := rfl
    refine ⟨_, ?_, hpair₂.setEvent he₂ harg₃⟩
    simp only [event_timer_process_firsttime, atTimer_ok hx, ok_bind, hu, atTimer_ok hy, hyev,
      event_del_ok he, event_assign_ok he₁, event_add_ok he₂, if_true]
  | false =>
    refine ⟨_, ?_, hpair₂.drop hlink₂ List.not_mem_nil⟩
    simp only [event_timer_process_firsttime, atTimer_ok hx, ok_bind, hu, atTimer_ok hy, hyev,
      event_del_ok he, event_assign_ok he₁, event_add_ok he₂, Bool.false_eq_true, if_false]
    exact drop_ok he₂ hy

theorem firsttime_freed (h : s.Paired []) (hlink : s.Linked ev te) (hcb : Returns removes cb)
    (hgone : removes ev = true) (ok : Bool) :
    s.event_timer_process_firsttime te cb ok = .error .freed := by
  obtain ⟨u, hu, _, hran⟩ := hcb [] s h
  have hnone := hran.gone ev te hlink hgone List.not_mem_nil
  obtain ⟨_, x, _, _, hx, _⟩ := hlink
  rw [event_timer_process_firsttime, atTimer_ok hx, ok_bind, hu, ok_bind, atTimer_freed hnone,
    error_bind]

/-- Whether the expiration is one after which the event is added for the first time again. -/
def FirstTime (ev : ℕ) (s : Runner) : Prop :=
  ∃ e, s.eventMem.cells ev = some e ∧ e.pending.isSome ∧ e.callback = .firsttime

theorem expire_idle (h : ∀ e, s.eventMem.cells ev = some e → e.pending.isSome = false)
    (ok : Bool) : s.expire ev cb ok = .error .idle := by
  rw [expire]
  cases he : s.eventMem.cells ev with
  | none => rfl
  | some e => simp [h e he]

theorem expire_some {e : Event} (h : s.Paired []) (he : s.eventMem.cells ev = some e)
    (hpending : e.pending.isSome) (cb : RunnerCall) (ok : Bool) :
    ∃ t : Runner, t.Paired [] ∧ t.Linked ev e.arg ∧ s.expire ev cb ok = match e.callback with
        | .process => t.event_timer_process e.arg cb
        | .firsttime => t.event_timer_process_firsttime e.arg cb ok := by
  have hlink := h.event ev e he
  cases hpersist : e.persist with
  | true =>
    refine ⟨s, h, hlink, ?_⟩
    cases hcallback : e.callback <;>
      simp only [expire, he, if_pos hpending, hpersist, if_true, hcallback]
  | false =>
    have harg : ({ e with pending := none } : Event).arg = e.arg := rfl
    refine ⟨s.setEvent ev { e with pending := none }, h.setEvent he harg,
      (linked_setEvent he harg _ _).mpr hlink, ?_⟩
    cases hcallback : e.callback <;>
      simp only [expire, he, if_pos hpending, hpersist, Bool.false_eq_true, if_false, hcallback]

/-- An expiration comes to its end when its callback leaves the timer alone, or does not come
back to it. -/
theorem expire_returns (h : s.Paired []) (hcb : Returns removes cb)
    (hkept : s.FirstTime ev → removes ev = false) (ok : Bool) :
    s.expire ev cb ok = .error .idle ∨ ∃ t, s.expire ev cb ok = .ok t ∧ t.Paired [] := by
  by_cases hpending : ∃ e, s.eventMem.cells ev = some e ∧ e.pending.isSome
  · right
    obtain ⟨e, he, hpending⟩ := hpending
    obtain ⟨t, hpair, hlink, hrun⟩ := expire_some h he hpending cb ok
    rw [hrun]
    cases hcallback : e.callback with
    | process => exact process_returns hpair hlink hcb
    | firsttime => exact firsttime_returns hpair hlink hcb (hkept ⟨e, he, hpending, hcallback⟩) ok
  · left
    apply expire_idle
    intro e he
    by_contra hne
    rw [Bool.not_eq_false] at hne
    exact hpending ⟨e, he, hne⟩

theorem expire_freed (h : s.Paired []) (hcb : Returns removes cb) (hfirst : s.FirstTime ev)
    (hgone : removes ev = true) (ok : Bool) : s.expire ev cb ok = .error .freed := by
  obtain ⟨e, he, hpending, hcallback⟩ := hfirst
  obtain ⟨t, hpair, hlink, hrun⟩ := expire_some h he hpending cb ok
  rw [hrun, hcallback]
  exact firsttime_freed hpair hlink hcb hgone ok

end Expire

end Runner

open Transition

/-- The call uses nothing that has been freed, and afterwards the map has exactly the events and
`TimerEvent`s that are there, and what is not there has been freed once. -/
def TimerOp.Sound (op : TimerOp) (s : Runner) : Prop :=
  op.exec s ≠ .error .freed ∧ op.exec s ≠ .error .null ∧ ∀ t, op.exec s = .ok t → t.Paired []

/-- The callback of a first expiration does not remove the timer that it is called for. -/
def TimerOp.Leaves : TimerOp → Runner → Prop
  | expire ev body _, s => s.FirstTime ev → body.removes ev = false
  | _, _ => True

theorem TimerOp.sound_of_returns {op : TimerOp} {s : Runner}
    (h : op.exec s = .error .idle ∨ ∃ t, op.exec s = .ok t ∧ t.Paired []) : op.Sound s := by
  rcases h with h | ⟨t, h, hpair⟩
  · rw [Sound, h]
    exact ⟨nofun, nofun, nofun⟩
  · rw [Sound, h]
    refine ⟨nofun, nofun, ?_⟩
    rintro u hu
    rw [← Except.ok.inj hu]
    exact hpair

theorem TimerOp.sound_iff (op : TimerOp) {s : Runner} (h : s.Paired []) :
    op.Sound s ↔ op.Leaves s := by
  cases op with
  | addTimer interval firstInterval o body =>
    obtain ⟨p, hp, hpair, _⟩ := addTimer_returns h body.exec_returns interval firstInterval o
    refine iff_of_true (sound_of_returns (.inr ⟨p.2, ?_, hpair⟩)) trivial
    rw [exec, hp, map_ok]
  | removeTimer timer =>
    obtain ⟨p, hp, hpair, _⟩ := removeTimer_returns h timer
    refine iff_of_true (sound_of_returns (.inr ⟨p.2, ?_, hpair⟩)) trivial
    rw [exec, hp, map_ok]
  | expire ev body ok =>
    constructor
    · intro hsound hfirst
      by_contra hgone
      rw [Bool.not_eq_false] at hgone
      exact hsound.1 (expire_freed h body.exec_returns hfirst hgone ok)
    · intro hkept
      exact sound_of_returns (expire_returns h body.exec_returns hkept ok)

def TimerOp.next (op : TimerOp) (s : Runner) : Option Runner := (op.exec s).toOption

theorem TimerOp.next_paired {op : TimerOp} {s t : Runner} (hsound : op.Sound s)
    (hnext : op.next s = some t) : t.Paired [] := by
  apply hsound.2.2
  rw [next] at hnext
  cases hexec : op.exec s with
  | error e =>
    rw [hexec] at hnext
    cases hnext
  | ok u =>
    rw [hexec] at hnext
    rw [Option.some.inj hnext]

/-- Nothing goes wrong with the timers of a run exactly when no callback of a first expiration
removes the timer that it is called for. -/
theorem timers_sound_iff (tv : UInt32) (ops : List TimerOp) :
    Always TimerOp.next TimerOp.Sound ops (Runner.start tv) ↔
      Always TimerOp.next TimerOp.Leaves ops (Runner.start tv) :=
  always_congr_of (fun _ _ _ _ hsound hnext => TimerOp.next_paired hsound hnext)
    (fun op _ h => op.sound_iff h) (paired_start tv)

/-- A timer that removes itself when it fires for the first time. -/
theorem timer_removes_itself : ∃ s,
    run TimerOp.next [.addTimer 1000 5 ⟨true, true, true⟩ .done] (Runner.start 0) = some s ∧
      (TimerOp.expire 0 (.removeTimer 0 .done) true).exec s = .error .freed := by
  refine ⟨_, rfl, ?_⟩
  rfl

end RgcFifa
