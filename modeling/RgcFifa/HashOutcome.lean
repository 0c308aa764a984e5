import RgcFifa.HashSigned
import RgcFifa.Lib.Faulting

/-! How the calls on a signed `HashList` end. -/

namespace RgcFifa.Signed

open Probing Faulting

variable {ε K V : Type}

/-- There are slots, and the hash is not negative, unless it leads to slot 0. -/
def Lands (hash : ℤ) (capacity : ℕ) : Prop := capacity ≠ 0 ∧ (0 ≤ hash ∨ (capacity : ℤ) ∣ hash)

instance (hash : ℤ) (capacity : ℕ) : Decidable (Lands hash capacity) :=
  inferInstanceAs (Decidable (_ ∧ _))

theorem lands_iff {hash : ℤ} {capacity : ℕ} :
    Lands hash capacity ↔ capacity ≠ 0 ∧ 0 ≤ hash.tmod capacity := by
  apply and_congr_right
  intro hcap
  constructor
  · rintro (h | h)
    · exact Int.tmod_nonneg _ h
    · exact (Int.tmod_eq_zero_of_dvd h).ge
  · intro h
    by_cases hneg : 0 ≤ hash
    · exact .inl hneg
    · have hle : 0 ≤ (-hash).tmod capacity := Int.tmod_nonneg _ (by omega)
      rw [Int.neg_tmod] at hle
      exact .inr (Int.dvd_of_tmod_eq_zero (by omega))

theorem Lands.modulo {hash : ℤ} {capacity : ℕ} (h : Lands hash capacity) :
    ∃ pos, modulo hash capacity = .ok pos ∧ 0 ≤ pos ∧ pos < capacity := by
  obtain ⟨hcap, hnonneg⟩ := lands_iff.mp h
  have hpos : (0 : ℤ) < capacity := by omega
  exact ⟨_, if_neg hcap, hnonneg, Int.tmod_lt_of_pos hash hpos⟩

theorem modulo_of_not_lands {hash : ℤ} {capacity : ℕ} (h : ¬ Lands hash capacity) :
    modulo hash capacity = .error .modulus ∨
      ∃ pos, modulo hash capacity = .ok pos ∧ pos < 0 ∧ capacity ≠ 0 := by
  by_cases hcap : capacity = 0
  · exact .inl (if_pos hcap)
  · refine .inr ⟨_, if_neg hcap, ?_, hcap⟩
    by_contra hge
    exact h (lands_iff.mpr ⟨hcap, not_lt.mp hge⟩)

theorem lands_of_nonneg {hash : ℤ} {capacity : ℕ} (hcap : capacity ≠ 0) (h : 0 ≤ hash) :
    Lands hash capacity := ⟨hcap, .inl h⟩

section Slots

variable {t : List (Cell ε)} {pos : ℤ}

theorem slot_ok (h : 0 ≤ pos ∧ pos < t.length) : slot t pos = .ok (cell t pos.toNat) := if_pos h

theorem store_ok (h : 0 ≤ pos ∧ pos < t.length) (c : Cell ε) :
    store t pos c = .ok (t.set pos.toNat c) := if_pos h

theorem slot_neg (h : pos < 0) : slot t pos = .error .index := if_neg fun hh => by omega

end Slots

/-- A fault of the arithmetic comes of a hash that does not land, and a deadlock of a lock that is
held; otherwise `Q` holds of what is returned. -/
def Outcome {α : Type} (lands locks : Prop) (Q : α → Prop) : Except Fault α → Prop
  | .ok a => lands ∧ ¬ locks ∧ Q a
  | .error .modulus => ¬ lands ∧ ¬ locks
  | .error .index => ¬ lands ∧ ¬ locks
  | .error .deadlock => lands ∧ locks
  | .error _ => lands ∧ ¬ locks

namespace Outcome

variable {α β : Type} {lands locks : Prop} {Q : α → Prop} {x : Except Fault α}

theorem lands_iff (h : Outcome lands locks Q x) :
    (x ≠ .error .modulus ∧ x ≠ .error .index) ↔ lands := by
  cases x with
  | ok a => simpa using h.1
  | error e => cases e <;> simpa using h.1

theorem locks_iff (h : Outcome lands locks Q x) : x = .error .deadlock ↔ locks := by
  cases x with
  | ok a => simpa using h.2.1
  | error e => cases e <;> simpa using h.2

theorem returns (h : Outcome lands locks Q x) {a : α} (hx : x = .ok a) : Q a := by
  rw [hx] at h
  exact h.2.2

theorem map {R : β → Prop} {f : α → β} (h : Outcome lands locks Q x) (hf : ∀ a, Q a → R (f a)) :
    Outcome lands locks R (f <$> x) := by
  cases x with
  | ok a => exact ⟨h.1, h.2.1, hf a h.2.2⟩
  | error e => cases e <;> exact h

end Outcome

namespace HashList

variable {l : HashList K V} {t : List (Cell (HashEntry K V))} {key : K} {H : Hasher K}
  {useMutex : Bool}

theorem lock_ok (h : l.locked = false) : l.lock useMutex = .ok { l with locked := useMutex } := by
  obtain ⟨entryList, count, locked⟩ := l
  obtain rfl : locked = false := h
  cases useMutex <;> rfl

theorem unlock_locked (h : l.locked = useMutex) : (l.unlock useMutex).locked = false := by
  cases useMutex with
  | false => exact h
  | true => rfl

theorem unlock_capacity : (l.unlock useMutex).capacity = l.capacity := by
  cases useMutex <;> rfl

theorem before_within {pos : ℤ} (h : 0 ≤ pos ∧ pos < t.length) (c : Cell (HashEntry K V)) :
    0 ≤ before t.length pos ∧ before t.length pos < (t.set pos.toNat c).length := by
  rw [List.length_set]
  unfold before
  split_ifs <;> omega

theorem clean_ok (n : ℕ) {pos : ℤ} (h : 0 ≤ pos ∧ pos < t.length) :
    ∃ u, clean t n pos = .ok u ∧ u.length = t.length := by
  induction n generalizing t pos with
  | zero => exact ⟨t, rfl, rfl⟩
  | succ n ih =>
    rw [clean, slot_ok h, ok_bind]
    cases cell t pos.toNat with
    | corpse =>
      obtain ⟨u, hu, hlen⟩ := ih (before_within h .null)
      refine ⟨u, ?_, hlen.trans List.length_set⟩
      simp only [store_ok h, ok_bind, hu]
    | null => exact ⟨t, rfl, rfl⟩
    | entry e => exact ⟨t, rfl, rfl⟩

theorem unlink_ok {pos : ℤ} (h : 0 ≤ pos ∧ pos < t.length) :
    ∃ u, unlink pos t = .ok u ∧ u.length = t.length := by
  obtain ⟨next, hnext, hwithin⟩ := (lands_of_nonneg (show t.length ≠ 0 by omega)
    (show 0 ≤ pos + 1 by omega)).modulo
  rw [unlink, hnext, ok_bind, slot_ok hwithin, ok_bind]
  cases cell t next.toNat with
  | null =>
    obtain ⟨u, hu, hlen⟩ := clean_ok t.length (before_within h .null)
    refine ⟨u, ?_, hlen.trans List.length_set⟩
    simp only [store_ok h, ok_bind, hu]
  | corpse => exact ⟨_, store_ok h _, List.length_set⟩
  | entry e => exact ⟨_, store_ok h _, List.length_set⟩

def Stays (l : HashList K V) : Prop :=
  ∃ space, toInt (l.count + l.count >>> (2 : ℕ)) = some space ∧ space < l.capacity

/-- The list is full enough to be replaced by one of this capacity. -/
def GrowsTo (capacity : ℕ) (l : HashList K V) : Prop :=
  ∃ space, toInt (l.count + l.count >>> (2 : ℕ)) = some space ∧ space ≥ l.capacity ∧
    stepSize.find? (l.capacity < ·) = some capacity

theorem GrowsTo.unique {c d : ℕ} (hc : l.GrowsTo c) (hd : l.GrowsTo d) : c = d := by
  obtain ⟨_, _, _, hc⟩ := hc
  obtain ⟨_, _, _, hd⟩ := hd
  exact Option.some.inj (hc.symm.trans hd)

theorem GrowsTo.not_stays {capacity : ℕ} (h : l.GrowsTo capacity) : ¬ l.Stays := by
  rintro ⟨space, hspace, hlt⟩
  obtain ⟨space', hspace', hge, _⟩ := h
  obtain rfl := Option.some.inj (hspace.symm.trans hspace')
  omega

/-- The list that the entries move to. -/
abbrev new (capacity : ℕ) (l : HashList K V) : HashList K V :=
  ⟨List.replicate capacity .null, 0, l.locked⟩

variable [DecidableEq K]

theorem search_ok (hash : ℤ) (n : ℕ) {pos : ℤ} (h : 0 ≤ pos ∧ pos < l.capacity) :
    ∃ r, l.search hash key n pos = .ok r ∧ ∀ found ∈ r, 0 ≤ found.1 ∧ found.1 < l.capacity := by
  induction n generalizing pos with
  | zero => exact ⟨none, rfl, by simp⟩
  | succ n ih =>
    obtain ⟨next, hnext, hwithin⟩ := (lands_of_nonneg (show l.capacity ≠ 0 by omega)
      (show 0 ≤ pos + 1 by omega)).modulo
    rw [search, slot_ok h, ok_bind]
    cases cell l.entryList pos.toNat with
    | null => exact ⟨none, rfl, by simp⟩
    | corpse => exact ih h
    | entry e =>
      dsimp only
      split_ifs
      · exact ⟨_, rfl, by simpa using h⟩
      · rw [hnext, ok_bind]
        exact ih hwithin

theorem search_neg (hash : ℤ) {n : ℕ} (hn : n ≠ 0) {pos : ℤ} (h : pos < 0) :
    l.search hash key n pos = .error .index := by
  obtain ⟨n, rfl⟩ := Nat.exists_eq_succ_of_ne_zero hn
  rw [search, slot_neg h, error_bind]

theorem insertLoop_ok (ent : HashEntry K V) (n : ℕ) {pos : ℤ} (h : 0 ≤ pos ∧ pos < l.capacity) :
    ∃ r, l.insertLoop ent n pos = .ok r ∧ r.2.capacity = l.capacity ∧ r.2.locked = l.locked := by
  induction n generalizing pos with
  | zero => exact ⟨_, rfl, rfl, rfl⟩
  | succ n ih =>
    obtain ⟨next, hnext, hwithin⟩ := (lands_of_nonneg (show l.capacity ≠ 0 by omega)
      (show 0 ≤ pos + 1 by omega)).modulo
    rw [insertLoop, slot_ok h, ok_bind]
    cases cell l.entryList pos.toNat with
    | null =>
      simp only [store_ok h, ok_bind]
      exact ⟨_, rfl, List.length_set, rfl⟩
    | corpse =>
      simp only [store_ok h, ok_bind]
      exact ⟨_, rfl, List.length_set, rfl⟩
    | entry e =>
      dsimp only
      split_ifs
      · exact ⟨_, rfl, rfl, rfl⟩
      · rw [hnext, ok_bind]
        exact ih hwithin

theorem insertLoop_neg (ent : HashEntry K V) {n : ℕ} (hn : n ≠ 0) {pos : ℤ} (h : pos < 0) :
    l.insertLoop ent n pos = .error .index := by
  obtain ⟨n, rfl⟩ := Nat.exists_eq_succ_of_ne_zero hn
  rw [insertLoop, slot_neg h, error_bind]

theorem insertInternal_lands {ent : HashEntry K V} (h : l.locked = false)
    (hlands : Lands ent.hash l.capacity) : ∃ r, l.insertInternal useMutex ent = .ok r ∧
      r.2.locked = false ∧ r.2.capacity = l.capacity := by
  obtain ⟨pos, hmod, hwithin⟩ := hlands.modulo
  obtain ⟨⟨ok, u⟩, hloop, hcap, hlocked⟩ :=
    @insertLoop_ok _ _ { l with locked := useMutex } _ ent l.capacity pos hwithin
  refine ⟨(ok, u.unlock useMutex), ?_, unlock_locked hlocked, unlock_capacity.trans hcap⟩
  simp only [insertInternal, lock_ok h, hmod, hloop, ok_bind]

theorem insertInternal_not_lands {ent : HashEntry K V} (h : l.locked = false)
    (hlands : ¬ Lands ent.hash l.capacity) : l.insertInternal useMutex ent = .error .modulus ∨
      l.insertInternal useMutex ent = .error .index := by
  rw [insertInternal, lock_ok h, ok_bind]
  rcases modulo_of_not_lands hlands with hmod | ⟨pos, hmod, hneg, hcap⟩
  · left
    simp only [hmod, error_bind]
  · right
    have hloop := @insertLoop_neg _ _ { l with locked := useMutex } _ ent _ hcap _ hneg
    simp only [hmod, ok_bind, hloop, error_bind]

/-- Without a mutex the entries move one by one. -/
theorem foldlM_lands {es : List (HashEntry K V)} (h : l.locked = false)
    (hlands : ∀ e ∈ es, Lands e.hash l.capacity) :
    ∃ u, es.foldlM (fun new entry => Prod.snd <$> new.insertInternal false entry) l = .ok u ∧
      u.locked = false ∧ u.capacity = l.capacity := by
  induction es generalizing l with
  | nil => exact ⟨l, rfl, h, rfl⟩
  | cons e es ih =>
    obtain ⟨hhead, htail⟩ := List.forall_mem_cons.mp hlands
    obtain ⟨r, hr, hlocked, hcap⟩ := insertInternal_lands h hhead
    rw [← hcap] at htail
    obtain ⟨u, hu, hlocked', hcap'⟩ := ih hlocked htail
    refine ⟨u, ?_, hlocked', hcap'.trans hcap⟩
    rw [List.foldlM_cons, hr, map_ok, ok_bind, hu]

theorem foldlM_not_lands {es : List (HashEntry K V)} (h : l.locked = false)
    (hlands : ¬ ∀ e ∈ es, Lands e.hash l.capacity) {x : Except Fault (HashList K V)}
    (hx : es.foldlM (fun new entry => Prod.snd <$> new.insertInternal false entry) l = x) :
    x = .error .modulus ∨ x = .error .index := by
  induction es generalizing l with
  | nil => exact absurd (by simp) hlands
  | cons e es ih =>
    rw [List.foldlM_cons] at hx
    by_cases hhead : Lands e.hash l.capacity
    · obtain ⟨r, hr, hlocked, hcap⟩ := insertInternal_lands h hhead
      rw [hr, map_ok, ok_bind] at hx
      refine ih hlocked (fun htail => hlands ?_) hx
      rw [hcap] at htail
      exact List.forall_mem_cons.mpr ⟨hhead, htail⟩
    · rcases insertInternal_not_lands h hhead with hr | hr
      · rw [hr, map_error, error_bind] at hx
        exact .inl hx.symm
      · rw [hr, map_error, error_bind] at hx
        exact .inr hx.symm

theorem rehash_lands {capacity : ℕ} (h : l.locked = useMutex)
    (hm : useMutex = true → entries l.entryList = [])
    (hlands : ∀ e ∈ entries l.entryList, Lands e.hash capacity) :
    ∃ u, l.rehash useMutex capacity = .ok u ∧ u.locked = useMutex ∧ u.capacity = capacity := by
  cases useMutex with
  | false =>
    have hlen : (new capacity l).capacity = capacity :=
      List.length_replicate
    rw [← hlen] at hlands
    obtain ⟨u, hu, hlocked, hcap⟩ := foldlM_lands (l := new capacity l) h hlands
    exact ⟨u, hu, hlocked, hcap.trans hlen⟩
  | true =>
    rw [rehash, hm rfl]
    exact ⟨_, rfl, h, List.length_replicate⟩

theorem rehash_not_lands {capacity : ℕ} (h : l.locked = useMutex)
    (hm : useMutex = true → entries l.entryList = [])
    (hlands : ¬ ∀ e ∈ entries l.entryList, Lands e.hash capacity) :
    l.rehash useMutex capacity = .error .modulus ∨ l.rehash useMutex capacity = .error .index := by
  cases useMutex with
  | false =>
    have hlen : (new capacity l).capacity = capacity :=
      List.length_replicate
    rw [← hlen] at hlands
    exact foldlM_not_lands (l := new capacity l) h hlands rfl
  | true =>
    rw [hm rfl] at hlands
    exact absurd (by simp) hlands

/-- The first entry that moves finds the mutex held. -/
theorem rehash_deadlock {capacity : ℕ} (h : l.locked = true) (hne : entries l.entryList ≠ []) :
    l.rehash true capacity = .error .deadlock := by
  obtain ⟨e, es, hes⟩ := List.exists_cons_of_ne_nil hne
  have hlock : lock true (⟨List.replicate capacity .null, 0, true⟩ : HashList K V) =
    .error .deadlock := rfl
  rw [rehash, hes, h, List.foldlM_cons, insertInternal, hlock, error_bind, map_error, error_bind]

theorem checkupSpace_stays (h : l.Stays) : l.checkupSpace useMutex = .ok l := by
  obtain ⟨space, hspace, hlt⟩ := h
  have hint : int (l.count + l.count >>> (2 : ℕ)) = .ok space := by rw [int, hspace]
  rw [checkupSpace, hint, ok_bind, if_neg (not_le.mpr hlt)]

theorem checkupSpace_growsTo {capacity : ℕ} (hl : l.locked = false) (h : l.GrowsTo capacity) :
    l.checkupSpace useMutex = (rehash useMutex capacity { l with locked := useMutex } >>=
      fun u => .ok (u.unlock useMutex)) := by
  obtain ⟨space, hspace, hge, hfind⟩ := h
  have hint : int (l.count + l.count >>> (2 : ℕ)) = .ok space := by rw [int, hspace]
  rw [checkupSpace, hint, ok_bind, if_pos hge, lock_ok hl, ok_bind]
  simp only [hfind]

theorem checkupSpace_stops (hl : l.locked = false) (hstays : ¬ l.Stays)
    (hgrows : ∀ capacity, ¬ l.GrowsTo capacity) : l.checkupSpace useMutex = .error .overflow ∨
      l.checkupSpace useMutex = .error .step := by
  cases hspace : toInt (l.count + l.count >>> (2 : ℕ)) with
  | none =>
    have hint : int (l.count + l.count >>> (2 : ℕ)) = .error .overflow := by rw [int, hspace]
    left
    rw [checkupSpace, hint, error_bind]
  | some space =>
    have hint : int (l.count + l.count >>> (2 : ℕ)) = .ok space := by rw [int, hspace]
    have hge : space ≥ l.capacity := by
      by_contra hlt
      exact hstays ⟨space, hspace, not_le.mp hlt⟩
    right
    rw [checkupSpace, hint, ok_bind, if_pos hge, lock_ok hl, ok_bind]
    cases hfind : stepSize.find? (l.capacity < ·) with
    | none => rfl
    | some capacity => exact absurd ⟨space, hspace, hge, hfind⟩ (hgrows capacity)

/-- Every first slot that the call computes lands, up to where the call stops. -/
def InsertLands (useMutex : Bool) (hash : ℤ) (l : HashList K V) : Prop :=
  (l.Stays → Lands hash l.capacity) ∧
    ∀ capacity, l.GrowsTo capacity → (useMutex = true → entries l.entryList = []) →
      (∀ e ∈ entries l.entryList, Lands e.hash capacity) ∧ Lands hash capacity

/-- A list grows that has entries to move. -/
def InsertLocks (useMutex : Bool) (l : HashList K V) : Prop :=
  useMutex = true ∧ entries l.entryList ≠ [] ∧ ∃ capacity, l.GrowsTo capacity

theorem insertInternal_outcome {lands : Prop} (ent : HashEntry K V) (h : l.locked = false)
    (hiff : Lands ent.hash l.capacity ↔ lands) :
    Outcome lands False (fun r => r.2.locked = false) (l.insertInternal useMutex ent) := by
  rw [← hiff]
  by_cases hlands : Lands ent.hash l.capacity
  · obtain ⟨r, hr, hlocked, _⟩ := @insertInternal_lands _ _ _ useMutex _ _ h hlands
    rw [hr]
    exact ⟨hlands, id, hlocked⟩
  · rcases @insertInternal_not_lands _ _ _ useMutex _ _ h hlands with hr | hr
    · rw [hr]
      exact ⟨hlands, id⟩
    · rw [hr]
      exact ⟨hlands, id⟩

theorem insert_growsTo_outcome (H : Hasher K) (key : K) (val : V) {capacity : ℕ}
    (h : l.locked = false) (hg : l.GrowsTo capacity)
    (hm : useMutex = true → entries l.entryList = []) :
    Outcome ((∀ e ∈ entries l.entryList, Lands e.hash capacity) ∧ Lands (H.doHash2 key) capacity)
      False (fun r => r.2.locked = false) (l.insert H useMutex key val) := by
  have hinsert : l.insert H useMutex key val = (l.checkupSpace useMutex >>= fun u =>
    u.insertInternal useMutex ⟨H.doHash2 key, key, val⟩) := rfl
  rw [hinsert, checkupSpace_growsTo h hg]
  by_cases hmove : ∀ e ∈ entries l.entryList, Lands e.hash capacity
  · obtain ⟨u, hu, hlocked, hcap⟩ := rehash_lands (l := { l with locked := useMutex }) rfl hm hmove
    rw [hu, ok_bind, ok_bind]
    refine insertInternal_outcome _ (unlock_locked hlocked) ?_
    rw [unlock_capacity, hcap]
    exact (and_iff_right hmove).symm
  · rcases rehash_not_lands (l := { l with locked := useMutex }) rfl hm hmove with hu | hu
    · rw [hu, error_bind, error_bind]
      exact ⟨fun hh => hmove hh.1, id⟩
    · rw [hu, error_bind, error_bind]
      exact ⟨fun hh => hmove hh.1, id⟩

theorem insert_outcome (H : Hasher K) (useMutex : Bool) (key : K) (val : V) (h : l.locked = false) :
    Outcome (l.InsertLands useMutex (H.doHash2 key)) (l.InsertLocks useMutex)
      (fun r => r.2.locked = false) (l.insert H useMutex key val) := by
  have hinsert : l.insert H useMutex key val = (l.checkupSpace useMutex >>= fun u =>
    u.insertInternal useMutex ⟨H.doHash2 key, key, val⟩) := rfl
  by_cases hstays : l.Stays
  · have hnot : ∀ capacity, ¬ l.GrowsTo capacity := fun capacity hg => hg.not_stays hstays
    have hlocks : l.InsertLocks useMutex ↔ False :=
      iff_false_intro fun hh => hh.2.2.elim hnot
    rw [hinsert, checkupSpace_stays hstays, ok_bind, hlocks]
    refine insertInternal_outcome _ h ⟨fun hlands => ?_, fun hlands => hlands.1 hstays⟩
    exact ⟨fun _ => hlands, fun capacity hg => absurd hg (hnot capacity)⟩
  by_cases hgrows : ∃ capacity, l.GrowsTo capacity
  · obtain ⟨capacity, hg⟩ := hgrows
    by_cases hm : useMutex = true → entries l.entryList = []
    · have hlocks : l.InsertLocks useMutex ↔ False := iff_false_intro fun hh => hh.2.1 (hm hh.1)
      have hiff : l.InsertLands useMutex (H.doHash2 key) ↔
          (∀ e ∈ entries l.entryList, Lands e.hash capacity) ∧ Lands (H.doHash2 key) capacity := by
        refine ⟨fun hlands => hlands.2 capacity hg hm, fun hlands => ?_⟩
        refine ⟨fun hs => absurd hs hstays, fun c hc _ => ?_⟩
        rwa [hc.unique hg]
      rw [hlocks, hiff]
      exact insert_growsTo_outcome H key val h hg hm
    · obtain ⟨rfl, hne⟩ := Classical.not_imp.mp hm
      rw [hinsert, checkupSpace_growsTo h hg,
        rehash_deadlock (l := { l with locked := true }) rfl hne, error_bind, error_bind]
      refine ⟨⟨fun hs => absurd hs hstays, fun c _ hempty => ?_⟩, rfl, hne, capacity, hg⟩
      exact absurd (hempty rfl) hne
  · have hnot := not_exists.mp hgrows
    have hlands : l.InsertLands useMutex (H.doHash2 key) :=
      ⟨fun hs => absurd hs hstays, fun capacity hg => absurd hg (hnot capacity)⟩
    have hlocks : ¬ l.InsertLocks useMutex := fun hh => hgrows hh.2.2
    rcases checkupSpace_stops h hstays hnot with hu | hu
    · rw [hinsert, hu, error_bind]
      exact ⟨hlands, hlocks⟩
    · rw [hinsert, hu, error_bind]
      exact ⟨hlands, hlocks⟩

/-- Where the walk of `remove` and `take` begins and ends. -/
theorem search_cases (l : HashList K V) (hash : ℤ) (key : K) :
    (Lands hash l.capacity ∧ ∃ pos r, modulo hash l.capacity = .ok pos ∧
      l.search hash key l.capacity pos = .ok r ∧
      ∀ found ∈ r, 0 ≤ found.1 ∧ found.1 < l.capacity) ∨
    (¬ Lands hash l.capacity ∧ (modulo hash l.capacity = .error .modulus ∨
      ∃ pos, modulo hash l.capacity = .ok pos ∧
        l.search hash key l.capacity pos = .error .index)) := by
  by_cases hlands : Lands hash l.capacity
  · obtain ⟨pos, hmod, hwithin⟩ := hlands.modulo
    obtain ⟨r, hr, hfound⟩ := @search_ok _ _ l key _ hash l.capacity _ hwithin
    exact .inl ⟨hlands, pos, r, hmod, hr, hfound⟩
  · rcases modulo_of_not_lands hlands with hmod | ⟨pos, hmod, hneg, hcap⟩
    · exact .inr ⟨hlands, .inl hmod⟩
    · exact .inr ⟨hlands, .inr ⟨pos, hmod, search_neg hash hcap hneg⟩⟩

theorem int_cases (x : ℤ) : (∃ y, int x = .ok y) ∨ int x = .error .overflow := by
  unfold int
  cases toInt x with
  | none => exact .inr rfl
  | some y => exact .inl ⟨y, rfl⟩

theorem remove_outcome (H : Hasher K) (useMutex : Bool) (key : K) (h : l.locked = false) :
    Outcome (Lands (H.doHash2 key) l.capacity) False (fun r => r.2.locked = false)
      (l.remove H useMutex key) := by
  rcases search_cases { l with locked := useMutex } (H.doHash2 key) key with
    ⟨hlands, pos, r, hmod, hsearch, hfound⟩ | ⟨hlands, hmod | ⟨pos, hmod, hsearch⟩⟩
  · cases r with
    | none =>
      simp only [remove, lock_ok h, ok_bind, hmod, hsearch]
      exact ⟨hlands, id, unlock_locked rfl⟩
    | some found =>
      obtain ⟨u, hu, _⟩ := unlink_ok (hfound found rfl)
      rcases int_cases (l.count - 1) with ⟨count, hcount⟩ | hcount
      · simp only [remove, lock_ok h, ok_bind, hmod, hsearch, hcount, hu]
        exact ⟨hlands, id, unlock_locked rfl⟩
      · simp only [remove, lock_ok h, ok_bind, hmod, hsearch, hcount, error_bind]
        exact ⟨hlands, id⟩
  · simp only [remove, lock_ok h, ok_bind, hmod, error_bind]
    exact ⟨hlands, id⟩
  · simp only [remove, lock_ok h, ok_bind, hmod, hsearch, error_bind]
    exact ⟨hlands, id⟩

theorem take_outcome (H : Hasher K) (useMutex : Bool) (key : K) (remove : Bool)
    (h : l.locked = false) :
    Outcome (Lands (H.doHash2 key) l.capacity) False (fun r => r.2.locked = false)
      (l.take H useMutex key remove) := by
  rcases search_cases { l with locked := useMutex } (H.doHash2 key) key with
    ⟨hlands, pos, r, hmod, hsearch, hfound⟩ | ⟨hlands, hmod | ⟨pos, hmod, hsearch⟩⟩
  · cases r with
    | none =>
      simp only [take, lock_ok h, ok_bind, hmod, hsearch]
      exact ⟨hlands, id, unlock_locked rfl⟩
    | some found =>
      obtain ⟨u, hu, _⟩ := unlink_ok (hfound found rfl)
      cases remove with
      | false =>
        simp only [take, lock_ok h, ok_bind, hmod, hsearch, Bool.false_eq_true, if_false]
        exact ⟨hlands, id, unlock_locked rfl⟩
      | true =>
        simp only [take, lock_ok h, ok_bind, hmod, hsearch, if_true]
        rcases int_cases (l.count - 1) with ⟨count, hcount⟩ | hcount
        · rcases int_cases (count - 1) with ⟨count', hcount'⟩ | hcount'
          · simp only [hcount, hu, hcount', ok_bind]
            exact ⟨hlands, id, unlock_locked rfl⟩
          · simp only [hcount, hu, hcount', ok_bind, error_bind]
            exact ⟨hlands, id⟩
        · simp only [hcount, error_bind]
          exact ⟨hlands, id⟩
  · simp only [take, lock_ok h, ok_bind, hmod, error_bind]
    exact ⟨hlands, id⟩
  · simp only [take, lock_ok h, ok_bind, hmod, hsearch, error_bind]
    exact ⟨hlands, id⟩

omit [DecidableEq K] in
theorem reset_ok (useMutex : Bool) (h : l.locked = false) :
    ∃ u, l.reset useMutex = .ok u ∧ u.locked = false := by
  refine ⟨unlock useMutex ⟨l.entryList.map fun _ => .null, l.count, useMutex⟩, ?_, unlock_locked rfl⟩
  rw [reset, lock_ok h, ok_bind]

/-- A call on a list whose mutex is free. -/
def OpLands (H : Hasher K) (useMutex : Bool) : HashOp K V → HashList K V → Prop
  | .insert key _, l => l.InsertLands useMutex (H.doHash2 key)
  | .remove key, l => Lands (H.doHash2 key) l.capacity
  | .take key _, l => Lands (H.doHash2 key) l.capacity
  | .reset, _ => True

def OpLocks (useMutex : Bool) : HashOp K V → HashList K V → Prop
  | .insert _ _, l => l.InsertLocks useMutex
  | _, _ => False

theorem exec_outcome (H : Hasher K) (useMutex : Bool) (op : HashOp K V) (h : l.locked = false) :
    Outcome (OpLands H useMutex op l) (OpLocks useMutex op l) (fun r => r.2.locked = false)
      (l.exec H useMutex op) := by
  cases op with
  | insert key val => exact (insert_outcome H useMutex key val h).map fun _ hr => hr
  | remove key => exact (remove_outcome H useMutex key h).map fun _ hr => hr
  | take key remove => exact (take_outcome H useMutex key remove h).map fun _ hr => hr
  | reset =>
    obtain ⟨u, hu, hlocked⟩ := reset_ok useMutex h
    rw [exec, hu, map_ok]
    exact ⟨trivial, id, hlocked⟩

end HashList

end RgcFifa.Signed
