import Std.Data.TreeMap
import Std.Data.TreeMap.Lemmas
import Mathlib.Data.List.Nodup
import Mathlib.Data.List.Perm.Basic

set_option autoImplicit false

/- Grouping a list by a key: `map[key(a)].push_back(value(a))` for every `a`. -/
namespace Grouping

open Std (TreeMap)

variable {α β : Type}

/-- The map that a loop over `items` leaves when it starts from `map`. -/
def group (key : α → Nat) (value : α → β) (items : List α) (map : TreeMap Nat (List β)) :
    TreeMap Nat (List β) :=
  items.foldl (fun map a => map.alter (key a) (fun vs => some (vs.getD [] ++ [value a]))) map

theorem group_getElem? (key : α → Nat) (value : α → β) (items : List α)
    (map : TreeMap Nat (List β)) (k : Nat) :
    (group key value items map)[k]?.getD [] =
      map[k]?.getD [] ++ (items.filter (fun a => key a == k)).map value := by
  unfold group
  induction items generalizing map with
  | nil => simp
  | cons a rest ih =>
    rw [List.foldl_cons, ih, TreeMap.getElem?_alter]
    by_cases same : key a = k
    · subst same
      simp
    · simp [same]

/-- The values grouped under a key, in the order of the list. -/
theorem group_empty_getElem? (key : α → Nat) (value : α → β) (items : List α) (k : Nat) :
    (group key value items ∅)[k]?.getD [] = (items.filter (fun a => key a == k)).map value := by
  rw [group_getElem?]
  simp

theorem mem_group_toList {key : α → Nat} {value : α → β} {items : List α} {e : Nat × List β}
    (member : e ∈ (group key value items ∅).toList) :
    e.2 = (items.filter (fun a => key a == e.1)).map value := by
  rw [← group_empty_getElem?, TreeMap.mem_toList_iff_getElem?_eq_some.mp member]
  rfl

/-- The loop makes no empty group. -/
theorem group_ne_nil {key : α → Nat} {value : α → β} {items : List α} {map : TreeMap Nat (List β)}
    (old : ∀ (k : Nat) (vs : List β), map[k]? = some vs → vs ≠ []) :
    ∀ (k : Nat) (vs : List β), (group key value items map)[k]? = some vs → vs ≠ [] := by
  unfold group
  induction items generalizing map with
  | nil => exact old
  | cons a rest ih =>
    apply ih
    intro k vs found
    rw [TreeMap.getElem?_alter] at found
    split at found
    · cases found
      simp
    · exact old k vs found

theorem distinct_keys (map : TreeMap Nat (List β)) : (map.toList.map (·.1)).Nodup := by
  unfold List.Nodup
  rw [List.pairwise_map]
  exact TreeMap.distinct_keys_toList.imp fun differ same => differ (by simp [same])

theorem mem_keys_group {key : α → Nat} {value : α → β} {items : List α} {a : α}
    (member : a ∈ items) : key a ∈ (group key value items ∅).toList.map (·.1) := by
  have inside : value a ∈ (group key value items ∅)[key a]?.getD [] := by
    rw [group_empty_getElem?]
    exact List.mem_map_of_mem (List.mem_filter.mpr ⟨member, by simp⟩)
  cases found : (group key value items ∅)[key a]? with
  | none => simp [found] at inside
  | some vs =>
    exact List.mem_map.mpr ⟨(key a, vs), TreeMap.mem_toList_iff_getElem?_eq_some.mpr found, rfl⟩

/-- Filtering by each of the keys in turn reorders a list. -/
theorem flatMap_filter_perm (key : α → Nat) {keys : List Nat} (distinct : keys.Nodup)
    (items : List α) (covered : ∀ a ∈ items, key a ∈ keys) :
    (keys.flatMap fun k => items.filter (fun a => key a == k)).Perm items := by
  induction items with
  | nil => simp
  | cons a rest ih =>
    obtain ⟨before, after, rfl⟩ := List.append_of_mem (covered a (by simp))
    rw [List.nodup_middle, List.nodup_cons] at distinct
    have skip : ∀ ks : List Nat, (∀ k ∈ ks, k ∈ before ++ after) →
        (ks.flatMap fun k => (a :: rest).filter (fun a => key a == k)) =
          ks.flatMap fun k => rest.filter (fun a => key a == k) := by
      intro ks within
      apply List.flatMap_congr
      intro k member
      rw [List.filter_cons_of_neg]
      intro same
      exact distinct.1 (beq_iff_eq.mp same ▸ within k member)
    have tail := ih fun a member => covered a (by simp [member])
    rw [List.flatMap_append, List.flatMap_cons] at tail ⊢
    rw [skip before (by simp +contextual), skip after (by simp +contextual),
      List.filter_cons_of_pos (by simp), List.cons_append]
    exact List.perm_middle.trans (tail.cons a)

/-- The groups together hold every value once for each element. -/
theorem group_flatMap_perm (key : α → Nat) (value : α → β) (items : List α) :
    ((group key value items ∅).toList.flatMap (·.2)).Perm (items.map value) := by
  have groups : (group key value items ∅).toList.flatMap (·.2) =
      (((group key value items ∅).toList.map (·.1)).flatMap
        fun k => items.filter (fun a => key a == k)).map value := by
    rw [List.map_flatMap, List.flatMap_map]
    exact List.flatMap_congr fun e member => mem_group_toList member
  rw [groups]
  exact (flatMap_filter_perm key (distinct_keys _) items fun a member => mem_keys_group member).map
    value

theorem exists_group (key : α → Nat) (value : α → β) {items : List α} {a : α}
    (member : a ∈ items) :
    ∃ vs, (key a, vs) ∈ (group key value items ∅).toList ∧ value a ∈ vs := by
  have keys : key a ∈ (group key value items ∅).toList.map (·.1) := mem_keys_group member
  obtain ⟨⟨k, vs⟩, listed, rfl⟩ := List.mem_map.mp keys
  have values : vs = _ := mem_group_toList listed
  refine ⟨vs, listed, ?_⟩
  rw [values]
  exact List.mem_map_of_mem (List.mem_filter.mpr ⟨member, by simp⟩)

/-- The values come in the order of their keys. -/
theorem group_idxOf_lt [DecidableEq β] (key : α → Nat) (value : α → β) {items : List α}
    (distinct : (items.map value).Nodup) {a b : α} (inA : a ∈ items) (inB : b ∈ items)
    (less : key a < key b) :
    ((group key value items ∅).toList.flatMap (·.2)).idxOf (value a) <
      ((group key value items ∅).toList.flatMap (·.2)).idxOf (value b) := by
  have once := (group_flatMap_perm key value items).nodup_iff.mpr distinct
  obtain ⟨as, listedA, memberA⟩ := exists_group key value inA
  obtain ⟨bs, listedB, memberB⟩ := exists_group key value inB
  have ordered : (group key value items ∅).toList.Pairwise (fun d e => d.1 < e.1) :=
    TreeMap.ordered_keys_toList.imp fun smaller => Nat.compare_eq_lt.mp smaller
  obtain ⟨before, after, split⟩ := List.append_of_mem listedA
  rw [split] at once listedB ordered ⊢
  have behind : (key b, bs) ∈ after := by
    rcases List.mem_append.mp listedB with early | late
    · have := (List.pairwise_append.mp ordered).2.2 _ early _ List.mem_cons_self
      simp only at this
      omega
    · rcases List.mem_cons.mp late with same | late
      · have : key b = key a := congrArg (·.1) same
        omega
      · exact late
  rw [List.flatMap_append, List.flatMap_cons, ← List.append_assoc] at once ⊢
  have front : value a ∈ before.flatMap (·.2) ++ as := List.mem_append_right _ memberA
  have back : value b ∈ after.flatMap (·.2) := List.mem_flatMap.mpr ⟨_, behind, memberB⟩
  have fresh : value b ∉ before.flatMap (·.2) ++ as :=
    fun also => (List.nodup_append.mp once).2.2 _ also _ back rfl
  rw [List.idxOf_append_of_mem front, List.idxOf_append_of_notMem fresh]
  have := List.idxOf_lt_length_of_mem front
  omega

/-- A map lists the values of one key together. -/
theorem flatMap_filter_toList (map : TreeMap Nat (List β)) (k : Nat) :
    (map.toList.filter (fun e => e.1 == k)).flatMap (·.2) = map[k]?.getD [] := by
  have same : ∀ e ∈ map.toList.filter (fun e => e.1 == k), e.1 = k ∧ map[k]? = some e.2 := by
    intro e member
    obtain ⟨listed, isKey⟩ := List.mem_filter.mp member
    have isKey := beq_iff_eq.mp isKey
    exact ⟨isKey, isKey ▸ TreeMap.mem_toList_iff_getElem?_eq_some.mp listed⟩
  have distinct : ((map.toList.filter (fun e => e.1 == k)).map (·.1)).Nodup :=
    (distinct_keys map).sublist (List.filter_sublist.map _)
  cases entries : map.toList.filter (fun e => e.1 == k) with
  | nil =>
    cases found : map[k]? with
    | none => rfl
    | some vs =>
      have listed : (k, vs) ∈ map.toList.filter (fun e => e.1 == k) :=
        List.mem_filter.mpr ⟨TreeMap.mem_toList_iff_getElem?_eq_some.mpr found, by simp⟩
      rw [entries] at listed
      cases listed
  | cons e rest =>
    rw [entries] at same distinct
    cases rest with
    | nil => simp [(same e (by simp)).2]
    | cons e' rest =>
      rw [List.map_cons, List.nodup_cons] at distinct
      refine absurd ?_ distinct.1
      rw [(same e (by simp)).1, ← (same e' (by simp)).1]
      simp

end Grouping
