import RgcFifa.AutoPtrAssign

/-! Runs of any operations on smart pointers. An operation is undone by its own release exactly when
that destroys the pointer to be set or the one it is set from. -/

namespace RgcFifa.RefCounting

open Heap

inductive Op where
  | new (fields : ℕ)
  | construct (x : Option ℕ)
  | constructShared (x : Option ℕ)
  | copy (q : ℕ)
  | destruct (p : ℕ)
  | assignPtr (p : ℕ) (x : Option ℕ)
  | assignShared (p : ℕ) (x : Option ℕ)
  | assign (p q : ℕ)
  | assignOther (p q : ℕ)
  | swap (p q : ℕ)
  | duplicate (q : ℕ)
  | release (o : ℕ)
  deriving DecidableEq, Repr

namespace Op

def exec (h : Heap) : Op → Except Fault Heap
  | .new fields => .ok (h.new fields)
  | .construct x => .ok (h.construct x)
  | .constructShared x => h.constructShared x
  | .copy q => h.copy q
  | .destruct p => h.destruct p
  | .assignPtr p x => h.assignPtr p x
  | .assignShared p x => h.assignShared p x
  | .assign p q => h.assign p q
  | .assignOther p q => h.assignOther p q
  | .swap p q => h.swap p q
  | .duplicate q => h.duplicateRaw q
  | .release o => h.releaseRaw o

/-- The smart pointer is not destroyed. -/
def There (h : Heap) (p : ℕ) : Prop := ∃ a, h.find p = some a

/-- What a smart pointer points to. -/
def pointee (h : Heap) (q : ℕ) : Option ℕ := (h.find q).bind AutoPtr.ptr

theorem pointee_of_find {h : Heap} {q : ℕ} {b : AutoPtr} (hb : h.find q = some b) : pointee h q = b.ptr := by
  rw [pointee, hb, Option.bind_some]

/-- What the caller sees to: the smart pointers are not destroyed, only variables are destroyed by
hand, a plain pointer that is taken over owns a reference, one that is shared is to an object that is
there, and an object is shared only while its counter has room. -/
def Allowed (h : Heap) : Op → Prop
  | .new _ => True
  | .construct x => ∀ o, x = some o → o ∈ h.raws
  | .constructShared x => (∀ o, x = some o → ∃ c, h.counter o = some c) ∧ h.Room x
  | .copy q => There h q ∧ h.Room (pointee h q)
  | .destruct p => ∃ a, h.find p = some a ∧ a.owner = none
  | .assignPtr p x => There h p ∧ ∀ o, x = some o → o ∈ h.raws
  | .assignShared p x => There h p ∧ (∀ o, x = some o → ∃ c, h.counter o = some c) ∧ h.Room x
  | .assign p q => There h p ∧ There h q ∧ h.Room (pointee h q)
  | .assignOther p q => There h p ∧ There h q ∧ h.Room (pointee h q)
  | .swap p q => There h p ∧ There h q
  | .duplicate q => There h q ∧ h.Room (pointee h q)
  | .release o => o ∈ h.raws

/-- The release of what the pointer holds leaves what the assignment still uses: the pointer itself,
and the pointer or the object that it is set from. -/
def Survives (h : Heap) : Op → Prop
  | .assignPtr p x => h.get p = .ok x ∨ ∃ h₀, h.cut p = .ok h₀ ∧ There h₀ p
  | .assignShared p x => h.get p = .ok x ∨ ∃ h₀, h.cut p = .ok h₀ ∧ There h₀ p
      ∧ ∀ o, x = some o → ∃ c, h₀.counter o = some c
  | .assign p q => p = q ∨ ∃ h₀, h.cut p = .ok h₀ ∧ There h₀ p ∧ There h₀ q
  | .assignOther p q => h.get p = h.get q ∨ ∃ h₀, h.cut p = .ok h₀ ∧ There h₀ p ∧ There h₀ q
  | _ => True

/-- A call ends well exactly under the condition. -/
def EndsWell (r : Except Fault Heap) (p : Prop) : Prop :=
  (∃ h', r = .ok h' ∧ Good h') ∧ p ∨ (∀ h', r ≠ .ok h') ∧ ¬p

theorem endsWell_of_ok {r : Except Fault Heap} (h : ∃ h', r = .ok h' ∧ Good h') : EndsWell r True :=
  Or.inl ⟨h, trivial⟩

theorem endsWell_assignPtr {h : Heap} (hg : Good h) {p : ℕ} {x : Option ℕ} (hp : There h p)
    (hx : ∀ o, x = some o → o ∈ h.raws) : EndsWell (h.assignPtr p x) (Survives h (.assignPtr p x)) := by
  obtain ⟨a, ha⟩ := hp
  obtain ⟨h₀, hcut, hg₀, hkept⟩ := hg.cut ha
  have hget := get_of_find ha
  by_cases hsame : a.ptr = x
  · exact Or.inl ⟨⟨h, by simp [Heap.assignPtr, hget, hsame], hg⟩, Or.inl (by rw [hget, hsame])⟩
  · have hrun : h.assignPtr p x
        = (h.release a.ptr >>= fun h => h.set p x) >>= fun h => .ok (h.forget x) := by
      simp [Heap.assignPtr, hget, hsame, bind_assoc]
    have hsurvives : Survives h (.assignPtr p x) ↔ There h₀ p := by
      simp [Survives, hget, hsame, hcut]
    rw [hsurvives, hrun]
    cases hd : h₀.find p with
    | none =>
      refine Or.inr ⟨fun h' hok => ?_, fun ⟨d, hd'⟩ => by simp [hd] at hd'⟩
      obtain ⟨h₁, hok, _⟩ := Faulting.bind_eq_ok.mp hok
      exact release_set_fails ha hcut hd x h₁ hok
    | some d =>
      obtain ⟨rfl, _⟩ := release_of_cut ha hcut hd
      refine Or.inl ⟨⟨_, by rw [release_set ha hcut hd, Faulting.ok_bind], ?_⟩, ⟨_, hd⟩⟩
      refine hg₀.same (by simp) (fun o => ?_) (fun i b o hb hbo => ?_)
      · have hraws : ∀ o, x = some o → o ∈ (h₀.setPtr p (some { a with ptr := x })).raws := by
          intro o ho
          show o ∈ h₀.raws
          rw [hkept.raws]
          exact hx o ho
        have hforget := refs_forget hraws o
        have hassigned := refs_assigned hd x o
        omega
      · rw [find_forget] at hb
        exact owner_setPtr hg₀ hd (by rfl) i b o hb hbo

theorem endsWell_assignShared {h : Heap} (hg : Good h) {p : ℕ} {x : Option ℕ} (hp : There h p)
    (hroom : h.Room x) : EndsWell (h.assignShared p x) (Survives h (.assignShared p x)) := by
  obtain ⟨a, ha⟩ := hp
  obtain ⟨h₀, hcut, hg₀, hkept⟩ := hg.cut ha
  have hget := get_of_find ha
  by_cases hsame : a.ptr = x
  · exact Or.inl ⟨⟨h, by simp [Heap.assignShared, hget, hsame], hg⟩, Or.inl (by rw [hget, hsame])⟩
  · have hrun : h.assignShared p x
        = (h.release a.ptr >>= fun h => h.set p x) >>= fun h => h.duplicate x := by
      simp [Heap.assignShared, hget, hsame, bind_assoc]
    have hsurvives : Survives h (.assignShared p x)
        ↔ There h₀ p ∧ ∀ o, x = some o → ∃ c, h₀.counter o = some c := by
      simp [Survives, hget, hsame, hcut]
    rw [hsurvives, hrun]
    cases hd : h₀.find p with
    | none =>
      refine Or.inr ⟨fun h' hok => ?_, fun ⟨⟨d, hd'⟩, _⟩ => by simp [hd] at hd'⟩
      obtain ⟨h₁, hok, _⟩ := Faulting.bind_eq_ok.mp hok
      exact release_set_fails ha hcut hd x h₁ hok
    | some d =>
      obtain ⟨rfl, _⟩ := release_of_cut ha hcut hd
      rw [release_set ha hcut hd, Faulting.ok_bind]
      by_cases hx : ∀ o, x = some o → ∃ c, h₀.counter o = some c
      · exact Or.inl ⟨hg₀.share (fun _ => rfl) (refs_assigned hd x) (owner_setPtr hg₀ hd (by rfl)) hx
          (hroom.cut hg hg₀ hkept), ⟨_, hd⟩, hx⟩
      · refine Or.inr ⟨fun h' hok => hx ?_, fun hs => hx hs.2⟩
        rintro o rfl
        cases hc : h₀.counter o with
        | none =>
          simp only [Heap.duplicate, counter_setPtr, hc] at hok
          cases hok
        | some c => exact ⟨c, rfl⟩

theorem endsWell_reassign {h : Heap} (hg : Good h) {p q : ℕ} (hne : q ≠ p) {a b : AutoPtr}
    (ha : h.find p = some a) (hb : h.find q = some b) (hroom : h.Room b.ptr) :
    EndsWell (h.reassign a.ptr p q) (∃ h₀, h.cut p = .ok h₀ ∧ There h₀ p ∧ There h₀ q) := by
  obtain ⟨h₀, hcut, hg₀, hkept⟩ := hg.cut ha
  have hsurvives : (∃ h₀, h.cut p = .ok h₀ ∧ There h₀ p ∧ There h₀ q) ↔ There h₀ p ∧ There h₀ q := by
    simp [hcut]
  rw [hsurvives]
  cases hd : h₀.find p with
  | none =>
    exact Or.inr ⟨reassign_fails hne ha hcut (Or.inl hd), fun ⟨⟨d, hd'⟩, _⟩ => by simp [hd] at hd'⟩
  | some d =>
    have hsame := hkept.find q
    rw [find_setPtr ha, if_neg hne, hb] at hsame
    obtain heq | ⟨hnone, _⟩ := hsame
    · exact Or.inl ⟨reassign_ok hg₀ hne ha hcut hd heq (hroom.cut hg hg₀ hkept), ⟨d, hd⟩, b, heq⟩
    · exact Or.inr ⟨reassign_fails hne ha hcut (Or.inr hnone), fun ⟨_, b, hb'⟩ => by simp [hnone] at hb'⟩

theorem endsWell_assign {h : Heap} (hg : Good h) {p q : ℕ} (hp : There h p) (hq : There h q)
    (hroom : h.Room (pointee h q)) : EndsWell (h.assign p q) (Survives h (.assign p q)) := by
  obtain ⟨a, ha⟩ := hp
  obtain ⟨b, hb⟩ := hq
  rw [pointee_of_find hb] at hroom
  by_cases heq : p = q
  · exact Or.inl ⟨⟨h, by simp [Heap.assign, heq], hg⟩, Or.inl heq⟩
  · have hrun : h.assign p q = h.reassign a.ptr p q := by
      simp [Heap.assign, heq, get_of_find ha, reassign]
    simpa [Survives, heq, hrun] using endsWell_reassign hg (Ne.symm heq) ha hb hroom

theorem endsWell_assignOther {h : Heap} (hg : Good h) {p q : ℕ} (hp : There h p) (hq : There h q)
    (hroom : h.Room (pointee h q)) : EndsWell (h.assignOther p q) (Survives h (.assignOther p q)) := by
  obtain ⟨a, ha⟩ := hp
  obtain ⟨b, hb⟩ := hq
  rw [pointee_of_find hb] at hroom
  have hgp := get_of_find ha
  have hgq := get_of_find hb
  by_cases heq : b.ptr = a.ptr
  · exact Or.inl ⟨⟨h, by simp [Heap.assignOther, hgp, hgq, heq], hg⟩, Or.inl (by rw [hgp, hgq, heq])⟩
  · have hne : q ≠ p := by
      rintro rfl
      obtain rfl := Option.some.inj (ha.symm.trans hb)
      exact heq rfl
    have hrun : h.assignOther p q = h.reassign a.ptr p q := by
      simp [Heap.assignOther, heq, hgp, hgq, reassign]
    simpa [Survives, hgp, hgq, Ne.symm heq, hrun] using endsWell_reassign hg hne ha hb hroom

theorem swap_good {h : Heap} (hg : Good h) {p q : ℕ} (hp : There h p) (hq : There h q) :
    ∃ h', h.swap p q = .ok h' ∧ Good h' := by
  obtain ⟨a, ha⟩ := hp
  obtain ⟨b, hb⟩ := hq
  by_cases heq : q = p
  · subst heq
    obtain rfl := Option.some.inj (ha.symm.trans hb)
    refine ⟨h, ?_, hg⟩
    simp only [Heap.swap, get_of_find ha, Faulting.ok_bind, set_of_find ha, setPtr_self ha]
  · have hfind : (h.setPtr p (some { a with ptr := b.ptr })).find q = some b := by
      rw [find_setPtr ha, if_neg heq, hb]
    refine ⟨(h.setPtr p (some { a with ptr := b.ptr })).setPtr q (some { b with ptr := a.ptr }), ?_, ?_⟩
    · simp only [Heap.swap, get_of_find ha, get_of_find hb, Faulting.ok_bind, set_of_find ha,
        set_of_find hfind]
    · refine hg.same (fun _ => rfl) (fun o => ?_) (fun i d o hd hdo => ?_)
      · have h1 := refs_setPtr ha (some { a with ptr := b.ptr }) o
        have h2 := refs_setPtr hfind (some { b with ptr := a.ptr }) o
        simp only [toNat_holds] at h1 h2
        omega
      · rw [find_setPtr hfind] at hd
        by_cases hi : i = q
        · simp only [hi, if_true, Option.some.injEq] at hd
          exact hg.owner q b o hb (by rw [← hdo, ← hd])
        · exact owner_setPtr (b := { a with ptr := b.ptr }) hg ha rfl i d o (by simpa [hi] using hd) hdo

theorem construct_good {h : Heap} (hg : Good h) {x : Option ℕ} (hx : ∀ o, x = some o → o ∈ h.raws) :
    Good (h.construct x) := by
  have hforget : ∀ i a o, (h.forget x).find i = some a → a.owner = some o → ∃ c, h.counter o = some c := by
    intro i a o ha hao
    exact hg.owner i a o (by simpa using ha) hao
  refine hg.same (fun o => ?_) (fun o => ?_) (fun i a o ha hao => ?_)
  · show (h.forget x).counter o = _
    rw [counter_forget]
  · rw [Heap.construct, refs_push, refs_forget hx]
  · rw [Heap.construct, find_push] at ha
    by_cases heq : i = (h.forget x).ptrs.length
    · simp only [heq, if_true, Option.some.injEq] at ha
      subst ha
      cases hao
    · exact hforget i a o (by simpa [heq] using ha) hao

theorem constructShared_good {h : Heap} (hg : Good h) {x : Option ℕ}
    (hx : ∀ o, x = some o → ∃ c, h.counter o = some c) (hroom : h.Room x) :
    ∃ h', h.constructShared x = .ok h' ∧ Good h' :=
  hg.share (fun _ => rfl) (refs_push h x) (owner_push hg x) hx hroom

theorem copy_good {h : Heap} (hg : Good h) {q : ℕ} (hq : There h q) (hroom : h.Room (pointee h q)) :
    ∃ h', h.copy q = .ok h' ∧ Good h' := by
  obtain ⟨b, hb⟩ := hq
  rw [pointee_of_find hb] at hroom
  simp only [Heap.copy, get_of_find hb, Faulting.ok_bind]
  exact constructShared_good hg (fun o ho => hg.live_ptr hb ho) hroom

theorem duplicate_good {h : Heap} (hg : Good h) {q : ℕ} (hq : There h q) (hroom : h.Room (pointee h q)) :
    ∃ h', h.duplicateRaw q = .ok h' ∧ Good h' := by
  obtain ⟨b, hb⟩ := hq
  rw [pointee_of_find hb] at hroom
  simp only [Heap.duplicateRaw, get_of_find hb, Faulting.ok_bind]
  have hshare := hg.share (g := { h with raws := h.raws ++ b.ptr.toList }) (x := b.ptr) (fun _ => rfl)
    (fun o => by simp [refs, List.count_append, add_assoc]) hg.owner (fun o ho => hg.live_ptr hb ho) hroom
  cases hp : b.ptr with
  | none => simpa [Heap.duplicate, hp] using hshare
  | some o =>
    obtain ⟨c, hc⟩ := hg.live_ptr hb hp
    have hc' : ({ h with raws := h.raws ++ [o] } : Heap).counter o = some c := hc
    by_cases hmax : c = counterMax
    · simp [Heap.duplicate, hp, hc', hmax] at hshare
    · simpa [Heap.duplicate, hp, hc, hc', hmax, setCounter] using hshare

theorem release_good {h : Heap} (hg : Good h) {o : ℕ} (ho : o ∈ h.raws) :
    ∃ h', h.releaseRaw o = .ok h' ∧ Good h' := by
  have hx : ∀ o', some o = some o' → o' ∈ h.raws := by
    rintro o' ⟨⟩
    exact ho
  obtain ⟨h', hrun, hgood, _⟩ := hg.release (g := h.forget (some o)) (x := some o) (by simp)
    (refs_forget hx) fun i a o' ha hao => hg.owner i a o' (by simpa using ha) hao
  exact ⟨h', hrun, hgood⟩

theorem destruct_good {h : Heap} (hg : Good h) {p : ℕ} {a : AutoPtr} (ha : h.find p = some a) :
    ∃ h', h.destruct p = .ok h' ∧ Good h' := by
  have hrefs (o : ℕ) : (h.setPtr p none).refs o + a.ptr.toList.count o = h.refs o := by
    have := refs_setPtr ha none o
    rw [toNat_holds] at this
    simpa [holds] using this
  obtain ⟨h', hrun, hgood, _⟩ := hg.release (g := h.setPtr p none) (x := a.ptr) (fun _ => rfl) hrefs
    fun i b o hb hbo => by
      rw [find_setPtr ha] at hb
      by_cases heq : i = p
      · simp [heq] at hb
      · exact hg.owner i b o (by simpa [heq] using hb) hbo
  refine ⟨h', ?_, hgood⟩
  rw [Heap.destruct, run_destruct, ha]
  cases hp : a.ptr with
  | none => simpa [hp, Heap.release, run] using hrun
  | some o => simpa [hp, Heap.release] using hrun

theorem endsWell_exec {h : Heap} (hg : Good h) {op : Op} (ha : Allowed h op) :
    EndsWell (op.exec h) (Survives h op) := by
  cases op with
  | new fields => exact endsWell_of_ok ⟨_, rfl, hg.new fields⟩
  | construct x => exact endsWell_of_ok ⟨_, rfl, construct_good hg ha⟩
  | constructShared x => exact endsWell_of_ok (constructShared_good hg ha.1 ha.2)
  | copy q => exact endsWell_of_ok (copy_good hg ha.1 ha.2)
  | destruct p =>
    obtain ⟨a, hp, _⟩ := ha
    exact endsWell_of_ok (destruct_good hg hp)
  | assignPtr p x => exact endsWell_assignPtr hg ha.1 ha.2
  | assignShared p x => exact endsWell_assignShared hg ha.1 ha.2.2
  | assign p q => exact endsWell_assign hg ha.1 ha.2.1 ha.2.2
  | assignOther p q => exact endsWell_assignOther hg ha.1 ha.2.1 ha.2.2
  | swap p q => exact endsWell_of_ok (swap_good hg ha.1 ha.2)
  | duplicate q => exact endsWell_of_ok (duplicate_good hg ha.1 ha.2)
  | release o => exact endsWell_of_ok (release_good hg ha)

end Op

/-! ### Runs -/

/-- What any calls of a careful caller make of an empty heap, as long as none goes wrong. -/
inductive Reachable : Heap → Prop
  | start : Reachable Heap.start
  | step {h h' : Heap} (op : Op) : Reachable h → op.Allowed h → op.exec h = .ok h' → Reachable h'

theorem good_start : Good Heap.start where
  count o c hc := by simp [counter, Heap.start] at hc
  live o hpos := by simp [refs, Heap.start] at hpos
  owner i a o ha := by simp [find, Heap.start] at ha
  pos o := by simp [counter, Heap.start]

theorem Reachable.good {h : Heap} (hr : Reachable h) : Good h := by
  induction hr with
  | start => exact good_start
  | @step h h' op _ ha hexec ih =>
    rcases Op.endsWell_exec ih ha with ⟨⟨h'', hok, hgood⟩, _⟩ | ⟨hfail, _⟩
    · obtain rfl := Except.ok.inj (hexec.symm.trans hok)
      exact hgood
    · exact (hfail h' hexec).elim

/-- An object is there exactly as long as there is a reference to it, and its counter is their number. -/
theorem counter_eq_refs {h : Heap} (hr : Reachable h) (o : ℕ) :
    (∀ c, h.counter o = some c → c = h.refs o) ∧ ((∃ c, h.counter o = some c) ↔ 0 < h.refs o) := by
  have hg := hr.good
  refine ⟨hg.count o, ?_, hg.live o⟩
  rintro ⟨c, hc⟩
  have hcount := hg.count o c hc
  have hne : c ≠ 0 := fun h0 => hg.pos o (h0 ▸ hc)
  omega

/-- An object with one member, and two variables that point to it. -/
def shared : Heap := ⟨[some 2], [some ⟨some 0, none⟩, some ⟨none, some 0⟩, some ⟨none, some 0⟩], []⟩

theorem shared_reachable : Reachable shared := by
  have hnew : Reachable (Heap.start.new 1) := Reachable.start.step (.new 1) trivial rfl
  have hconstruct : Reachable ((Heap.start.new 1).construct (some 0)) :=
    hnew.step (.construct (some 0)) (by rintro o ⟨⟩; decide) rfl
  exact hconstruct.step (.copy 1) ⟨⟨⟨none, some 0⟩, rfl⟩, by rintro o ⟨⟩; decide⟩ rfl

theorem counter_eq_refs_shared :
    (∀ c, shared.counter 0 = some c → c = shared.refs 0) ∧ ((∃ c, shared.counter 0 = some c) ↔ 0 < shared.refs 0) :=
  counter_eq_refs shared_reachable 0

/-- An operation of a careful caller touches nothing that is gone, unless its own release destroys
what it still needs. -/
theorem exec_iff {h : Heap} (hr : Reachable h) {op : Op} (ha : op.Allowed h) :
    (∃ h', op.exec h = .ok h') ↔ op.Survives h := by
  rcases Op.endsWell_exec hr.good ha with ⟨⟨h', hok, _⟩, hs⟩ | ⟨hfail, hs⟩
  · exact ⟨fun _ => hs, fun _ => ⟨h', hok⟩⟩
  · exact ⟨fun ⟨h', hok⟩ => (hfail h' hok).elim, fun hs' => (hs hs').elim⟩

theorem exec_iff_shared :
    (∃ h', (Op.assign 1 0).exec shared = .ok h') ↔ (Op.assign 1 0).Survives shared :=
  exec_iff shared_reachable ⟨⟨_, rfl⟩, ⟨_, rfl⟩, fun _ h => nomatch h⟩

/-- What is left of an object when a variable gives its reference up. -/
theorem counter_cut {h h₀ : Heap} (hg : Good h) {p o : ℕ} {a : AutoPtr} (ha : h.find p = some a)
    (hp : a.ptr = some o) (hcut : h.cut p = .ok h₀) :
    (∃ c, h₀.counter o = some c) ↔ 2 ≤ h.refs o := by
  obtain ⟨c, hc⟩ := hg.live_ptr ha hp
  have hcount := hg.count o c hc
  have hpos := refs_pos ha hp
  obtain ⟨h₁, hh₁⟩ : ∃ h₁, h.setPtr p (some { a with ptr := none }) = h₁ := ⟨_, rfl⟩
  have hc₁ : h₁.counter o = some c := by rw [← hh₁, counter_setPtr, hc]
  have hsound : Sound h₁ [.release o] := by
    have hs := hg.sound (g := h₁) (x := a.ptr) (fun o' => by rw [← hh₁, counter_setPtr])
      (by rw [← hh₁]; exact refs_setPtr_none ha) (by rw [← hh₁]; exact owner_setPtr hg ha rfl)
    simpa [hp] using hs
  simp only [Heap.cut, ha, hp, Heap.release, hh₁] at hcut
  have hmin : c ≠ counterMin := ne_counterMin (by omega)
  rw [run_release, hc₁] at hcut
  simp only [hmin, if_false] at hcut
  by_cases hlast : c - 1 = 0
  · simp only [hlast, if_true] at hcut
    have hmid := hsound.release_last hc₁ hlast
    rw [hlast] at hmid
    obtain ⟨h', hrun, hs', hkept⟩ := run_sound hmid
    obtain rfl := Except.ok.inj (hcut.symm.trans hrun)
    have hgone := hkept.dying hs' (o := o) (by rw [counter_setCounter hc₁, if_pos rfl])
    simp only [hgone, reduceCtorEq, exists_false, false_iff]
    omega
  · simp only [hlast, if_false, run, Except.ok.injEq] at hcut
    rw [← hcut, counter_setCounter hc₁, if_pos rfl]
    simp only [Option.some.injEq, exists_eq', true_iff]
    omega

/-- `p = p->next`: the object that the variable leaves is read after its release, so it takes another
reference to it. -/
theorem assign_next_iff {h : Heap} (hr : Reachable h) {p q o : ℕ} {a b : AutoPtr}
    (ha : h.find p = some a) (hvar : a.owner = none) (hp : a.ptr = some o)
    (hb : h.find q = some b) (hmember : b.owner = some o) (hroom : h.Room b.ptr) :
    (∃ h', h.assign p q = .ok h') ↔ 2 ≤ h.refs o := by
  have hg := hr.good
  have hne : p ≠ q := by
    rintro rfl
    obtain rfl := Option.some.inj (ha.symm.trans hb)
    simp [hvar] at hmember
  obtain ⟨h₀, hcut, hg₀, hkept⟩ := hg.cut ha
  have hfind := find_setPtr ha (some { a with ptr := none })
  have hthere : Op.There h₀ p := by
    rcases hkept.find p with heq | ⟨_, d, o', hd, howner, _⟩
    · exact ⟨_, by rw [heq, hfind, if_pos rfl]⟩
    · rw [hfind, if_pos rfl] at hd
      obtain rfl := Option.some.inj hd
      simp [hvar] at howner
  have hthere' : Op.There h₀ q ↔ ∃ c, h₀.counter o = some c := by
    constructor
    · rintro ⟨d, hd⟩
      rcases hkept.find q with heq | ⟨hnone, _⟩
      · rw [heq, hfind, if_neg hne.symm, hb] at hd
        obtain rfl := Option.some.inj hd
        exact hg₀.owner q b o (by rw [heq, hfind, if_neg hne.symm, hb]) hmember
      · rw [hnone] at hd
        cases hd
    · rintro ⟨c, hc⟩
      rcases hkept.find q with heq | ⟨_, d, o', hd, howner, hnone⟩
      · exact ⟨b, by rw [heq, hfind, if_neg hne.symm, hb]⟩
      · rw [hfind, if_neg hne.symm, hb] at hd
        obtain rfl := Option.some.inj hd
        obtain rfl : o = o' := Option.some.inj (hmember.symm.trans howner)
        rw [hnone] at hc
        cases hc
  have hsurvives : (Op.assign p q).Survives h ↔ 2 ≤ h.refs o := by
    rw [← counter_cut hg ha hp hcut, ← hthere']
    simp [Op.Survives, hne, hcut, hthere]
  rw [← hsurvives]
  rcases Op.endsWell_assign hg ⟨a, ha⟩ ⟨b, hb⟩ (by rwa [Op.pointee_of_find hb]) with ⟨⟨h', hok, _⟩, hs⟩ | ⟨hfail, hs⟩
  · exact ⟨fun _ => hs, fun _ => ⟨h', hok⟩⟩
  · exact ⟨fun ⟨h', hok⟩ => (hfail h' hok).elim, fun hs' => (hs hs').elim⟩

theorem assign_next_iff_shared : (∃ h', shared.assign 1 0 = .ok h') ↔ 2 ≤ shared.refs 0 :=
  assign_next_iff shared_reachable rfl rfl rfl rfl rfl fun _ h => nomatch h

/-- When no variable and no plain reference is left, what the objects own is left only in cycles. -/
theorem no_leak {h : Heap} (hr : Reachable h) (hraws : h.raws = [])
    (hvars : ∀ i a, h.find i = some a → a.owner ≠ none) (rank : ℕ → ℕ)
    (hacyclic : ∀ i a o o', h.find i = some a → a.owner = some o → a.ptr = some o' → rank o' < rank o)
    (o : ℕ) : h.counter o = none := by
  have hg := hr.good
  have hup (o : ℕ) (c : ℤ) (hc : h.counter o = some c) :
      ∃ o' c', h.counter o' = some c' ∧ rank o < rank o' := by
    have hcount := hg.count o c hc
    have hne : c ≠ 0 := fun h0 => hg.pos o (h0 ▸ hc)
    have hpos : 0 < h.ptrs.countP (holds o) := by
      simp [refs, hraws] at hcount
      omega
    obtain ⟨a, hmem, hholds⟩ := List.countP_pos_iff.mp hpos
    obtain ⟨i, hi, hget⟩ := List.getElem_of_mem hmem
    cases a with
    | none => simp [holds] at hholds
    | some a =>
      have ha : h.find i = some a := by simp [find, hi, hget]
      cases howner : a.owner with
      | none => exact (hvars i a ha howner).elim
      | some o' =>
        obtain ⟨c', hc'⟩ := hg.owner i a o' ha howner
        exact ⟨o', c', hc', hacyclic i a o' o ha howner (by simpa [holds] using hholds)⟩
  have hbound (o : ℕ) (c : ℤ) (hc : h.counter o = some c) :
      rank o ≤ (Finset.range h.counters.length).sup rank := by
    obtain ⟨hlt, _⟩ := List.getElem?_eq_some_iff.mp (getElem?_counters hc)
    exact Finset.le_sup (Finset.mem_range.mpr hlt)
  have hclimb (n : ℕ) : (∃ o c, h.counter o = some c) → ∃ o c, h.counter o = some c ∧ n ≤ rank o := by
    rintro ⟨o, c, hc⟩
    induction n with
    | zero => exact ⟨o, c, hc, Nat.zero_le _⟩
    | succ n ih =>
      obtain ⟨o', c', hc', hle⟩ := ih
      obtain ⟨o'', c'', hc'', hlt⟩ := hup o' c' hc'
      exact ⟨o'', c'', hc'', by omega⟩
  cases hc : h.counter o with
  | none => rfl
  | some c =>
    obtain ⟨o', c', hc', hle⟩ := hclimb ((Finset.range h.counters.length).sup rank + 1) ⟨o, c, hc⟩
    have := hbound o' c' hc'
    omega

/-- One object, made and given up. -/
theorem gone_reachable : Reachable ⟨[none], [none], []⟩ := by
  have hnew : Reachable (Heap.start.new 0) := Reachable.start.step (.new 0) trivial rfl
  have hconstruct : Reachable ⟨[some 1], [some ⟨none, some 0⟩], []⟩ :=
    hnew.step (.construct (some 0)) (by rintro o ⟨⟩; decide) rfl
  refine hconstruct.step (.destruct 0) ⟨⟨none, some 0⟩, rfl, rfl⟩ ?_
  simp [Op.exec, Heap.destruct, run_destruct, run_release, find, counter, members, setPtr, setCounter, run,
    counterMin]

theorem find_gone (i : ℕ) : Heap.find ⟨[none], [none], []⟩ i = none := by
  cases i <;> rfl

theorem no_leak_gone : Heap.counter ⟨[none], [none], []⟩ 0 = none :=
  no_leak gone_reachable rfl (by simp [find_gone]) id (by simp [find_gone]) 0

end RgcFifa.RefCounting
