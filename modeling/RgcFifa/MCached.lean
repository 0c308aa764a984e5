import RgcFifa.Lib.Transition
import RgcFifa.StringTokenizer

/-! The hosts that `MCached::addHosts` collects. Its search passes over every host when the token
is not empty, so it keeps the tokens apart only where they were apart already. -/

namespace RgcFifa

open Transition

namespace MCached

abbrev Host := List Char

/-- The inner loop over `_hosts`. -/
def found (token : Host) : List Host → Bool
  | [] => false
  | host :: hosts =>
    if token ≠ [] then found token hosts
    else if token = host then true
    else found token hosts

/-- One round of the outer loop, with `ret` and `_hosts`. -/
def addToken (s : Bool × List Host) (token : Host) : Bool × List Host :=
  if found token s.2 then s else (true, s.2 ++ [token])

/-- What is returned, and `_hosts` afterwards; `hosts` is the null pointer or a C string. -/
def addHosts (hosts : Option (List Char)) (_hosts : List Host) : Bool × List Host :=
  match hosts with
  | none => (false, _hosts)
  | some [] => (false, _hosts)
  | some (c :: str) =>
    let tk := StringTokenizer [','] (c :: str)
    if tk = [] then (false, _hosts) else tk.foldl addToken (false, _hosts)

/-- The tokens of a call. -/
def tokens (hosts : Option (List Char)) : List Host :=
  match hosts with
  | none => []
  | some str => StringTokenizer [','] str

end MCached

open MCached

/-- A number of calls that have been made. -/
structure HostCalls where
  hosts : List Host
  /-- The tokens that they added, one after the other. -/
  added : List Host
  deriving DecidableEq

namespace HostCalls

def start : HostCalls := ⟨[], []⟩

def next (call : Option (List Char)) (s : HostCalls) : HostCalls :=
  ⟨(addHosts call s.hosts).2, s.added ++ tokens call⟩

def step (call : Option (List Char)) (s : HostCalls) : Option HostCalls := some (s.next call)

end HostCalls

/-- The hosts as a set, in the order in which they appeared. -/
structure HostSet (added hosts : List Host) : Prop where
  nodup : hosts.Nodup
  nonempty : [] ∉ hosts
  mem_iff : ∀ h, h ∈ hosts ↔ h ∈ added ∧ h ≠ []
  order : hosts.Pairwise fun h h' => added.idxOf h < added.idxOf h'

/-- What the hosts should be after a call, and what it should return. -/
structure AddsToSet (call : Option (List Char)) (s : HostCalls) : Prop where
  set : HostSet (s.next call).added (s.next call).hosts
  ret : (addHosts call s.hosts).1 ↔ ∃ h ∈ (s.next call).hosts, h ∉ s.hosts

/-- No token of the call is empty, comes twice, or is among the hosts. -/
structure NewHosts (call : Option (List Char)) (s : HostCalls) : Prop where
  nonempty : [] ∉ tokens call
  nodup : (tokens call).Nodup
  disjoint : ∀ h ∈ tokens call, h ∉ s.hosts

variable {token : Host} {hosts ts added : List Host} {call : Option (List Char)} {s t : HostCalls}

@[simp] theorem found_of_ne (h : token ≠ []) : found token hosts = false := by
  induction hosts with
  | nil => rfl
  | cons host hosts ih => simp only [found, if_pos h, ih]

theorem found_nil : found [] hosts ↔ [] ∈ hosts := by
  induction hosts with
  | nil => simp [found]
  | cons host hosts ih =>
    by_cases hnil : [] = host
    · simp [found, hnil]
    · simp [found, hnil, ih]

theorem addHosts_eq (call : Option (List Char)) (hosts : List Host) :
    addHosts call hosts = (tokens call).foldl addToken (false, hosts) := by
  cases call with
  | none => rfl
  | some str =>
    cases str with
    | nil => rw [addHosts, tokens, tokenizer_nil, List.foldl_nil]
    | cons c str =>
      simp only [addHosts, tokens]
      split_ifs with hnil
      · rw [hnil, List.foldl_nil]
      · rfl

/-- Tokens that are not empty are all pushed. -/
theorem foldl_addToken (hts : [] ∉ ts) (ret : Bool) (hosts : List Host) :
    ts.foldl addToken (ret, hosts) = (ret || !ts.isEmpty, hosts ++ ts) := by
  induction ts generalizing ret hosts with
  | nil => simp
  | cons token ts ih =>
    rw [List.mem_cons, not_or] at hts
    have hne : token ≠ [] := fun h => hts.1 h.symm
    rw [List.foldl_cons, addToken, found_of_ne hne, if_neg (by simp), ih hts.2]
    simp

theorem mem_addToken {h : Host} {r : Bool × List Host} (hh : h ∈ r.2) :
    h ∈ (addToken r token).2 := by
  rw [addToken]
  split_ifs
  · exact hh
  · exact List.mem_append_left _ hh

theorem mem_foldl_addToken {h : Host} {r : Bool × List Host} (hh : h ∈ r.2) :
    h ∈ (ts.foldl addToken r).2 := by
  induction ts generalizing r with
  | nil => exact hh
  | cons token ts ih => exact ih (mem_addToken hh)

/-- An empty token ends up among the hosts. -/
theorem nil_mem_foldl_addToken {r : Bool × List Host} (hts : [] ∈ ts) :
    [] ∈ (ts.foldl addToken r).2 := by
  induction ts generalizing r with
  | nil => cases hts
  | cons token ts ih =>
    rw [List.foldl_cons]
    rcases List.mem_cons.mp hts with rfl | hmem
    · apply mem_foldl_addToken
      rw [addToken]
      split_ifs with hfound
      · exact found_nil.mp hfound
      · exact List.mem_append_right _ (List.mem_singleton_self _)
    · exact ih hmem

theorem next_hosts (hts : [] ∉ tokens call) :
    (s.next call).hosts = s.hosts ++ tokens call := by
  rw [HostCalls.next, addHosts_eq, foldl_addToken hts]

theorem NewHosts.adds (hnew : NewHosts call s) (hset : HostSet s.added s.hosts) :
    AddsToSet call s := by
  have hhosts := next_hosts (s := s) hnew.nonempty
  constructor
  · rw [hhosts]
    constructor
    · apply hset.nodup.append hnew.nodup
      intro h hold htoken
      exact hnew.disjoint h htoken hold
    · simp [hset.nonempty, hnew.nonempty]
    · intro h
      have hne : h ∈ tokens call → h ≠ [] := fun hmem hnil => hnew.nonempty (hnil ▸ hmem)
      rw [HostCalls.next, List.mem_append, List.mem_append, hset.mem_iff]
      tauto
    · have hold : ∀ h ∈ s.hosts, h ∈ s.added := fun h hh => ((hset.mem_iff h).mp hh).1
      have hfresh : ∀ h ∈ tokens call, h ∉ s.added := by
        intro h hh hadded
        apply hnew.disjoint h hh
        exact (hset.mem_iff h).mpr ⟨hadded, fun hnil => hnew.nonempty (hnil ▸ hh)⟩
      rw [HostCalls.next, List.pairwise_append]
      refine ⟨?_, ?_, ?_⟩
      · refine hset.order.imp_of_mem ?_
        intro a b ha hb hab
        rwa [List.idxOf_append_of_mem (hold a ha), List.idxOf_append_of_mem (hold b hb)]
      · have hidx : (tokens call).Pairwise
            fun h h' => (tokens call).idxOf h < (tokens call).idxOf h' := by
          rw [List.pairwise_iff_getElem]
          intro i j hi hj hij
          rwa [hnew.nodup.idxOf_getElem, hnew.nodup.idxOf_getElem]
        refine hidx.imp_of_mem ?_
        intro a b ha hb hab
        rw [List.idxOf_append_of_notMem (hfresh a ha), List.idxOf_append_of_notMem (hfresh b hb)]
        omega
      · intro a ha b hb
        rw [List.idxOf_append_of_mem (hold a ha), List.idxOf_append_of_notMem (hfresh b hb)]
        have hlt := List.idxOf_lt_length_of_mem (hold a ha)
        omega
  · rw [hhosts, addHosts_eq, foldl_addToken hnew.nonempty]
    constructor
    · intro hret
      obtain ⟨h, hh⟩ := List.exists_mem_of_ne_nil (tokens call) (by simpa using hret)
      exact ⟨h, List.mem_append_right _ hh, hnew.disjoint h hh⟩
    · rintro ⟨h, hh, hnot⟩
      have hmem := (List.mem_append.mp hh).resolve_left hnot
      simpa using List.ne_nil_of_mem hmem

theorem NewHosts.of_set (h : HostSet (s.next call).added (s.next call).hosts) :
    NewHosts call s := by
  have hts : [] ∉ tokens call := by
    intro hmem
    apply h.nonempty
    rw [HostCalls.next, addHosts_eq]
    exact nil_mem_foldl_addToken hmem
  have hnodup := h.nodup
  rw [next_hosts hts, List.nodup_append] at hnodup
  exact ⟨hts, hnodup.2.1, fun a ha hold => hnodup.2.2 a hold a ha rfl⟩

/-- In every run of calls, from an empty list, the hosts are the set of the tokens after each call,
and each call returns whether it added one, exactly when no call has a token that is empty, comes
twice in it, or is among the hosts already. -/
theorem addHosts_set_iff (calls : List (Option (List Char))) :
    Always HostCalls.step AddsToSet calls .start ↔
      Always HostCalls.step NewHosts calls .start := by
  apply always_congr_of (I := fun s => HostSet s.added s.hosts)
  · rintro call s t _ hadds ht
    obtain rfl := Option.some.inj ht
    exact hadds.set
  · intro call s hset
    exact ⟨fun hadds => .of_set hadds.set, fun hnew => hnew.adds hset⟩
  · exact ⟨.nil, by simp [HostCalls.start], by simp [HostCalls.start], .nil⟩

/-- The host that comes twice in `a,a` is there twice. -/
theorem addHosts_twice :
    addHosts (some "a,a".toList) [] = (true, ["a".toList, "a".toList]) ∧
      ¬ Always HostCalls.step AddsToSet [some "a,a".toList] .start := by
  have htokens : tokens (some "a,a".toList) = ["a".toList, "a".toList] := by
    simp [tokens, StringTokenizer]
  have hnil : [] ∉ tokens (some "a,a".toList) := by
    rw [htokens]
    decide
  constructor
  · rw [addHosts_eq, foldl_addToken hnil, htokens]
    rfl
  · rintro ⟨hadds, _⟩
    have hnodup := (NewHosts.of_set hadds.set).nodup
    rw [htokens] at hnodup
    exact absurd hnodup (by decide)

end RgcFifa
