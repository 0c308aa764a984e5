import RgcFifa.Lib.Transition
import RgcFifa.ServerCommon

/-! Any number of `ServerCommonConfig` objects that are added to and assigned to one another.
`operator=` puts the entries of its argument over those that the target has, and takes none out. -/

namespace RgcFifa

open Transition

namespace ServerCommonConfig

variable {a b c : ServerCommonConfig}

/-- All fields are the same, and all that is looked up. -/
structure Agree (a b : ServerCommonConfig) : Prop where
  serverType : a.serverType = b.serverType
  serverUID : a.serverUID = b.serverUID
  serverListenPort : a.serverListenPort = b.serverListenPort
  serverConnectMap : a.serverConnectMap = b.serverConnectMap
  ip : ∀ uid, a.getIpFromConnectMap uid = b.getIpFromConnectMap uid
  port : ∀ uid, a.getPortFromConnectMap uid = b.getPortFromConnectMap uid

/-- The two bytes of a key are put together again. -/
theorem join_split (key : UInt16) :
    ((key >>> 8).toUInt8.toUInt16 <<< 8) + (key &&& 0xFF).toUInt8.toUInt16 = key := by
  have hlt := key.toNat_lt
  have hhigh : (key >>> 8).toUInt8.toNat = key.toNat / 256 := by
    have hshift : (key >>> 8).toNat = key.toNat >>> 8 := rfl
    rw [UInt16.toNat_toUInt8, hshift, Nat.shiftRight_eq_div_pow]
    omega
  have hlow : (key &&& 0xFF).toUInt8.toNat = key.toNat % 256 := by
    have hmask : (key &&& 0xFF).toNat = key.toNat &&& (2 ^ 8 - 1) := rfl
    rw [UInt16.toNat_toUInt8, hmask, Nat.and_two_pow_sub_one_eq_mod]
    omega
  have hleft : ((key >>> 8).toUInt8.toUInt16 <<< 8).toNat = key.toNat / 256 * 256 := by
    have hshift : ((key >>> 8).toUInt8.toUInt16 <<< 8).toNat =
        (key >>> 8).toUInt8.toNat <<< 8 % 2 ^ 16 := rfl
    rw [hshift, hhigh, Nat.shiftLeft_eq]
    omega
  apply UInt16.toNat_inj.mp
  rw [UInt16.toNat_add, hleft, UInt8.toNat_toUInt16, hlow]
  omega

theorem addConnectListOf_split (key : UInt16) (ip : String) (port : UInt16) :
    c.addConnectListOf (key >>> 8).toUInt8 (key &&& 0xFF).toUInt8 ip port =
      c.addConnectList key ip port := by
  rw [addConnectListOf, join_split]

theorem foldl_addConnectList (l : List (UInt16 × String × UInt16)) :
    l.foldl (fun this e => this.addConnectList e.1 e.2.1 e.2.2) c =
      { c with serverConnectMap := c.serverConnectMap.insertMany l } := by
  rw [Std.ExtTreeMap.insertMany_list_eq_foldl]
  induction l generalizing c with
  | nil => rfl
  | cons e l ih =>
    rw [List.foldl_cons, List.foldl_cons, ih]
    rfl

theorem assign_eq : a.assign b =
    { b with serverConnectMap := a.serverConnectMap.insertMany b.serverConnectMap.toList } := by
  simp only [assign, addConnectListOf_split, Std.ExtTreeMap.foldl_eq_foldl_toList]
  exact foldl_addConnectList _

theorem getElem?_assign (uid : UInt16) : (a.assign b).serverConnectMap[uid]? =
    (b.serverConnectMap[uid]?).or (a.serverConnectMap[uid]?) := by
  rw [assign_eq]
  cases hb : b.serverConnectMap[uid]? with
  | some e =>
    have hmem := Std.ExtTreeMap.mem_toList_iff_getElem?_eq_some.mpr hb
    simpa using Std.ExtTreeMap.getElem?_insertMany_list_of_mem Std.ReflCmp.compare_self
      Std.ExtTreeMap.distinct_keys_toList hmem
  | none =>
    have hkeys : (b.serverConnectMap.toList.map Prod.fst).contains uid = false := by
      simp [Std.ExtTreeMap.mem_iff_isSome_getElem?, hb]
    simpa using Std.ExtTreeMap.getElem?_insertMany_list_of_contains_eq_false hkeys

theorem mem_assign {uid : UInt16} : uid ∈ (a.assign b).serverConnectMap ↔
    uid ∈ b.serverConnectMap ∨ uid ∈ a.serverConnectMap := by
  simp only [Std.ExtTreeMap.mem_iff_isSome_getElem?, getElem?_assign, Option.isSome_or,
    Bool.or_eq_true]

theorem agree_of_map (htype : a.serverType = b.serverType) (huid : a.serverUID = b.serverUID)
    (hport : a.serverListenPort = b.serverListenPort)
    (hmap : a.serverConnectMap = b.serverConnectMap) : Agree a b where
  serverType := htype
  serverUID := huid
  serverListenPort := hport
  serverConnectMap := hmap
  ip uid := by simp only [getIpFromConnectMap, hmap]
  port uid := by simp only [getPortFromConnectMap, hmap]

/-- The copy is one when nothing of the target is left. -/
theorem agree_assign_iff : Agree (a.assign b) b ↔
    ∀ uid ∈ a.serverConnectMap, uid ∈ b.serverConnectMap := by
  constructor
  · intro h uid ha
    rw [← h.serverConnectMap]
    exact mem_assign.mpr (.inr ha)
  · intro h
    have hmap : (a.assign b).serverConnectMap = b.serverConnectMap := by
      apply Std.ExtTreeMap.ext_getElem?
      intro uid
      rw [getElem?_assign]
      by_cases hb : uid ∈ b.serverConnectMap
      · have hsome := Std.ExtTreeMap.mem_iff_isSome_getElem?.mp hb
        rw [Option.or_of_isSome hsome]
      · have ha : uid ∉ a.serverConnectMap := fun ha => hb (h uid ha)
        rw [Std.ExtTreeMap.getElem?_eq_none ha, Option.or_none]
    exact agree_of_map (by rw [assign_eq]) (by rw [assign_eq]) (by rw [assign_eq]) hmap

/-- What is left of the target is not seen where it is what `b` gives by default. -/
theorem lookups_assign_iff :
    (∀ uid, (a.assign b).getIpFromConnectMap uid = b.getIpFromConnectMap uid ∧
      (a.assign b).getPortFromConnectMap uid = b.getPortFromConnectMap uid) ↔
    ∀ uid entry, a.serverConnectMap[uid]? = some entry →
      uid ∈ b.serverConnectMap ∨ entry = ("127.0.0.1", 0) := by
  apply forall_congr'
  intro uid
  cases hb : b.serverConnectMap[uid]? with
  | some e =>
    have hmem : uid ∈ b.serverConnectMap := by simp [Std.ExtTreeMap.mem_iff_isSome_getElem?, hb]
    simp [getIpFromConnectMap, getPortFromConnectMap, getElem?_assign, hmem]
  | none =>
    have hmem : uid ∉ b.serverConnectMap := by simp [Std.ExtTreeMap.mem_iff_isSome_getElem?, hb]
    cases ha : a.serverConnectMap[uid]? with
    | none => simp [getIpFromConnectMap, getPortFromConnectMap, getElem?_assign, ha, hb]
    | some e =>
      simp [getIpFromConnectMap, getPortFromConnectMap, getElem?_assign, ha, hmem, Prod.ext_iff]

/-- The first assignment to an object is a copy. -/
theorem ofType_assign (type uid : UInt8) (port : UInt16) :
    Agree ((ofType type uid port).assign b) b :=
  agree_assign_iff.mpr fun _ h => absurd h Std.ExtTreeMap.not_mem_empty

end ServerCommonConfig

/-- The calls, on any of the objects. -/
inductive ConfigOp where
  | addConnectList (i : ℕ) (uid : UInt16) (ip : String) (port : UInt16)
  | addConnectListOf (i : ℕ) (type uid : UInt8) (ip : String) (port : UInt16)
  | assign (i j : ℕ)

namespace ConfigOp

abbrev Configs := ℕ → ServerCommonConfig

def step : ConfigOp → Configs → Option Configs
  | addConnectList i uid ip port, s =>
      some (Function.update s i ((s i).addConnectList uid ip port))
  | addConnectListOf i type uid ip port, s =>
      some (Function.update s i ((s i).addConnectListOf type uid ip port))
  | assign i j, s => some (Function.update s i ((s i).assign (s j)))

/-- After `a = b` the two agree. -/
def Copies (op : ConfigOp) (s : Configs) : Prop :=
  match op with
  | assign i j => ∃ t, step (assign i j) s = some t ∧ (t i).Agree (t j)
  | _ => True

/-- Every server in the map that is assigned to is in the other map too. -/
def Covers : ConfigOp → Configs → Prop
  | assign i j, s => ∀ uid ∈ (s i).serverConnectMap, uid ∈ (s j).serverConnectMap
  | _, _ => True

theorem copies_iff {op : ConfigOp} {s : Configs} : op.Copies s ↔ op.Covers s := by
  cases op with
  | assign i j =>
    simp only [Copies, Covers, step, Option.some.injEq, exists_eq_left']
    by_cases hij : j = i
    · subst j
      exact iff_of_true (ServerCommonConfig.agree_of_map rfl rfl rfl rfl) fun _ h => h
    · rw [Function.update_self, Function.update_of_ne hij]
      exact ServerCommonConfig.agree_assign_iff
  | _ => exact Iff.rfl

end ConfigOp

theorem config_assign_iff (type uid : ℕ → UInt8) (port : ℕ → UInt16) (ops : List ConfigOp) :
    Always ConfigOp.step ConfigOp.Copies ops (fun i => .ofType (type i) (uid i) (port i)) ↔
      Always ConfigOp.step ConfigOp.Covers ops (fun i => .ofType (type i) (uid i) (port i)) :=
  always_congr (I := fun _ => True) (fun _ _ _ _ _ => trivial) (fun _ _ _ => ConfigOp.copies_iff)
    trivial

/-- Server 1 is known to the one that is assigned to, and not to the other. -/
theorem config_assign_left_over :
    ¬ Always ConfigOp.step ConfigOp.Copies [.addConnectList 0 1 "10.0.0.1" 80, .assign 0 1]
      (fun _ => .ofType 1 1 9000) := by
  rintro ⟨-, hrest⟩
  obtain ⟨⟨t, ht, hagree⟩, -⟩ := hrest _ rfl
  obtain rfl := Option.some.inj ht
  have hip := hagree.ip 1
  simp [ServerCommonConfig.getIpFromConnectMap, ServerCommonConfig.getElem?_assign,
    ServerCommonConfig.addConnectList, ServerCommonConfig.ofType] at hip

end RgcFifa
