import TieredCache.Dict

/-! Lists of entries told apart by a key. On a list whose keys are pairwise different a lookup
does not depend on the order, and taking a key out takes one entry. Equality of keys need not be
identity: an entry is found under every spelling of its key. -/
namespace TieredCache.Keyed
variable {K E F : Type} [BEq K]

def Apart (key : E → K) (entries : List E) : Prop :=
  entries.Pairwise (fun a b => (key a == key b) = false)

def find (key : E → K) (entries : List E) (k : K) : Option E :=
  entries.find? (fun e => key e == k)

def without (key : E → K) (entries : List E) (k : K) : List E :=
  entries.filter (fun e => !(key e == k))

def copies (key : E → K) (entries : List E) (k : K) : Nat :=
  entries.countP (fun e => key e == k)

theorem findMem {key : E → K} {entries : List E} {k : K} {e : E}
    (found : find key entries k = some e) : e ∈ entries ∧ (key e == k) = true := by
  unfold find at found
  exact ⟨List.mem_of_find?_eq_some found, by simpa using List.find?_some found⟩

theorem findNone {key : E → K} {entries : List E} {k : K} :
    find key entries k = none ↔ ∀ e ∈ entries, (key e == k) = false := by
  simp [find]

theorem findCongr {key other : E → K} {entries : List E} {k : K}
    (same : ∀ e ∈ entries, (key e == k) = (other e == k)) : find key entries k = find other entries k := by
  induction entries with
  | nil => rfl
  | cons e rest ih =>
    have later := ih (fun d mem => same d (by simp [mem]))
    simp only [find, List.find?_cons, same e (by simp)] at later ⊢
    rw [later]

theorem withoutMem {key : E → K} {entries : List E} {k : K} {e : E} :
    e ∈ without key entries k ↔ e ∈ entries ∧ (key e == k) = false := by
  simp [without]

theorem withoutNone {key : E → K} {entries : List E} {k : K}
    (none : ∀ e ∈ entries, (key e == k) = false) : without key entries k = entries := by
  simpa [without] using none

theorem withoutTwice (key : E → K) (entries : List E) (k : K) :
    without key (without key entries k) k = without key entries k :=
  withoutNone (fun _ mem => (withoutMem.mp mem).2)

theorem withoutCons (key : E → K) (e : E) (xs : List E) (k : K) :
    without key (e :: xs) k = if key e == k then without key xs k else e :: without key xs k := by
  cases at_k : key e == k <;> simp [without, at_k]

theorem withoutAppend (key : E → K) (xs ys : List E) (k : K) :
    without key (xs ++ ys) k = without key xs k ++ without key ys k := by
  simp [without]

theorem findAppend (key : E → K) (xs ys : List E) (k : K) :
    find key (xs ++ ys) k = (find key xs k).or (find key ys k) := by
  simp [find, List.find?_append]

theorem findMapped (key : F → K) (f : E → F) (entries : List E) (k : K) :
    find key (entries.map f) k = (find (fun e => key (f e)) entries k).map f := by
  unfold find
  exact List.find?_map

theorem withoutMapped (key : F → K) (f : E → F) (entries : List E) (k : K) :
    without key (entries.map f) k = (without (fun e => key (f e)) entries k).map f := by
  simp [without, List.filter_map, Function.comp_def]

theorem apartMapped (key : F → K) (f : E → F) (entries : List E) :
    Apart key (entries.map f) ↔ Apart (fun e => key (f e)) entries := by
  simp [Apart, List.pairwise_map]

theorem apartSublist {key : E → K} {xs ys : List E} (apart : Apart key ys) (sub : xs.Sublist ys) :
    Apart key xs := List.Pairwise.sublist sub apart

theorem apartWithout {key : E → K} {entries : List E} (apart : Apart key entries) (k : K) :
    Apart key (without key entries k) := apartSublist apart List.filter_sublist

theorem withoutPerm (key : E → K) {xs ys : List E} (perm : xs.Perm ys) (k : K) :
    (without key xs k).Perm (without key ys k) := perm.filter _

theorem apartAppend {key : E → K} {xs ys : List E} :
    Apart key (xs ++ ys) ↔ Apart key xs ∧ Apart key ys ∧ ∀ x ∈ xs, ∀ y ∈ ys, (key x == key y) = false :=
  List.pairwise_append

variable [EquivBEq K]

theorem unequalSymm {a b : K} (other : (a == b) = false) : (b == a) = false := by
  rw [← BEq.comm]; exact other

theorem unequalOf {i j k : K} (same : (i == j) = true) (other : (i == k) = false) : (k == j) = false := by
  rw [BEq.comm, ← BEq.congr_left same]
  exact other

theorem apartPerm {key : E → K} {xs ys : List E} (perm : xs.Perm ys) :
    Apart key xs ↔ Apart key ys :=
  perm.pairwise_iff (fun other => unequalSymm other)

theorem apartCons {key : E → K} {x : E} {xs : List E} :
    Apart key (x :: xs) ↔ (∀ y ∈ xs, (key y == key x) = false) ∧ Apart key xs := by
  unfold Apart
  rw [List.pairwise_cons]
  exact and_congr_left' ⟨fun h y mem => unequalSymm (h y mem), fun h y mem => unequalSymm (h y mem)⟩

theorem apartAround {key : E → K} {before after : List E} {e : E} {k : K}
    (apart : Apart key (before ++ e :: after)) (at_k : (key e == k) = true) :
    (∀ x ∈ before, (key x == k) = false) ∧ ∀ x ∈ after, (key x == k) = false := by
  have split := apartAppend.mp apart
  constructor
  · intro x mem
    exact BEq.congr_right at_k ▸ split.2.2 x mem e (by simp)
  · intro x mem
    exact BEq.congr_right at_k ▸ (apartCons.mp split.2.1).1 x mem

theorem findAround {key : E → K} {before after : List E} {e : E} {k : K}
    (apart : Apart key (before ++ e :: after)) (at_k : (key e == k) = true) :
    find key (before ++ e :: after) k = some e := by
  rw [findAppend, findNone.mpr (apartAround apart at_k).1]
  simp [find, at_k]

theorem withoutAround {key : E → K} {before after : List E} {e : E} {k : K}
    (apart : Apart key (before ++ e :: after)) (at_k : (key e == k) = true) :
    without key (before ++ e :: after) k = before ++ after := by
  obtain ⟨left, right⟩ := apartAround apart at_k
  rw [withoutAppend, withoutNone left]
  congr 1
  simpa [without, at_k] using right

theorem findOf {key : E → K} {entries : List E} {e : E} {k : K} (apart : Apart key entries)
    (mem : e ∈ entries) (at_k : (key e == k) = true) : find key entries k = some e := by
  obtain ⟨before, after, rfl⟩ := List.append_of_mem mem
  exact findAround apart at_k

theorem findIff {key : E → K} {entries : List E} {e : E} {k : K} (apart : Apart key entries) :
    find key entries k = some e ↔ e ∈ entries ∧ (key e == k) = true :=
  ⟨findMem, fun h => findOf apart h.1 h.2⟩

theorem findPerm {key : E → K} {xs ys : List E} (apart : Apart key xs) (perm : xs.Perm ys) (k : K) :
    find key xs k = find key ys k := by
  apply Option.ext
  intro e
  rw [findIff apart, findIff ((apartPerm perm).mp apart), perm.mem_iff]

theorem findFilter {key : E → K} {entries : List E} (apart : Apart key entries) (keep : E → Bool)
    (k : K) : find key (entries.filter keep) k = (find key entries k).filter keep := by
  apply Option.ext
  intro e
  rw [findIff (apartSublist apart List.filter_sublist), Option.filter_eq_some_iff, findIff apart,
    List.mem_filter]
  exact and_right_comm

theorem findWithoutSame {key : E → K} {entries : List E} {k j : K} (same : (k == j) = true) :
    find key (without key entries k) j = none := by
  rw [findNone]
  intro e mem
  rw [← BEq.congr_right same]
  exact (withoutMem.mp mem).2

theorem foundFirst {key : E → K} {entries : List E} (apart : Apart key entries) (k : K) :
    ((find key entries k).toList ++ without key entries k).Perm entries := by
  cases found : find key entries k with
  | none =>
    rw [withoutNone (findNone.mp found)]
    exact List.Perm.refl _
  | some e =>
    obtain ⟨mem, at_k⟩ := findMem found
    obtain ⟨before, after, rfl⟩ := List.append_of_mem mem
    rw [withoutAround apart at_k]
    show (e :: (before ++ after)).Perm (before ++ e :: after)
    exact List.perm_middle.symm

theorem withoutLength {key : E → K} {entries : List E} (apart : Apart key entries) (k : K) :
    (without key entries k).length + (if (find key entries k).isSome then 1 else 0) = entries.length := by
  have parts := (foundFirst apart k).length_eq
  rw [List.length_append, Nat.add_comm] at parts
  rw [← parts]
  cases find key entries k <;> rfl

omit [EquivBEq K] in
theorem copiesAppend (key : E → K) (xs ys : List E) (k : K) :
    copies key (xs ++ ys) k = copies key xs k + copies key ys k := by
  simp [copies]

omit [EquivBEq K] in
theorem copiesCons (key : E → K) (e : E) (xs : List E) (k : K) :
    copies key (e :: xs) k = copies key xs k + if key e == k then 1 else 0 := by
  simp [copies, List.countP_cons]

omit [EquivBEq K] in
theorem copiesKeys (key : E → K) (entries : List E) (k : K) :
    copies id (entries.map key) k = copies key entries k := by
  simp [copies, List.countP_map, Function.comp_def]

omit [EquivBEq K] in
theorem copiesPerm (key : E → K) {xs ys : List E} (perm : xs.Perm ys) (k : K) :
    copies key xs k = copies key ys k := perm.countP_eq _

omit [EquivBEq K] in
theorem copiesNone {key : E → K} {entries : List E} {k : K} :
    copies key entries k = 0 ↔ find key entries k = none := by
  rw [findNone]
  simp [copies]

theorem copiesCongr {k j : K} (same : (k == j) = true) (key : E → K) (entries : List E) :
    copies key entries k = copies key entries j := by
  unfold copies
  refine List.countP_congr (fun e _ => ?_)
  rw [BEq.congr_right same]

theorem apartCopies {key : E → K} {entries : List E} :
    Apart key entries ↔ ∀ k, copies key entries k ≤ 1 := by
  induction entries with
  | nil => simp [Apart, copies]
  | cons e rest ih =>
    rw [apartCons, ih]
    simp only [copiesCons]
    constructor
    · rintro ⟨others, few⟩ k
      cases at_k : key e == k with
      | false => simpa using few k
      | true =>
        have none : copies key rest k = 0 := by
          rw [copiesNone, findNone]
          intro d mem
          rw [← BEq.congr_right at_k]
          exact others d mem
        simp [none]
    · intro few
      refine ⟨?_, fun k => Nat.le_trans (Nat.le_add_right _ _) (few k)⟩
      have alone := few (key e)
      rw [BEq.refl, if_pos rfl] at alone
      have none : copies key rest (key e) = 0 := by omega
      exact findNone.mp (copiesNone.mp none)

theorem copiesWithout {key : E → K} {entries : List E} (apart : Apart key entries) (k j : K) :
    copies key (without key entries k) j +
      (if (find key entries k).isSome && k == j then 1 else 0) = copies key entries j := by
  have found := copiesPerm key (foundFirst apart k) j
  rw [copiesAppend, Nat.add_comm] at found
  rw [← found]
  congr 1
  cases first : find key entries k with
  | none => rfl
  | some e =>
    have at_k := (findMem first).2
    cases at_j : k == j with
    | true => simp [copies, BEq.trans at_k at_j]
    | false => simp [copies, BEq.congr_left at_k, at_j]

theorem apartLength {key : E → K} {entries : List E} (apart : Apart key entries) (keys : List K)
    (named : ∀ e ∈ entries, keys.any (· == key e) = true) : entries.length ≤ keys.length := by
  induction entries generalizing keys with
  | nil => exact Nat.zero_le _
  | cons e rest ih =>
    obtain ⟨others, apart⟩ := apartCons.mp apart
    obtain ⟨j, mem, at_e⟩ := List.any_eq_true.mp (named e (by simp))
    obtain ⟨before, after, rfl⟩ := List.append_of_mem mem
    -- The entry uses up the key it goes by: none of the others goes by that one.
    have left : ∀ d ∈ rest, (before ++ after).any (· == key d) = true := by
      intro d also
      have other : (j == key d) = false := by
        rw [BEq.congr_left at_e]
        exact unequalSymm (others d also)
      have found := named d (by simp [also])
      simpa [List.any_append, other] using found
    have fewer := ih apart (before ++ after) left
    simp only [List.length_append, List.length_cons] at fewer ⊢
    omega

theorem apartCount {key : E → K} {entries : List E} (apart : Apart key entries) (k : K) :
    copies key entries k = if (find key entries k).isSome then 1 else 0 := by
  have few := apartCopies.mp apart k
  have none : copies key entries k = 0 ↔ find key entries k = none := copiesNone
  cases found : find key entries k with
  | none => exact none.mpr found
  | some e =>
    have held : copies key entries k ≠ 0 := fun zero => by simp [none.mp zero] at found
    show copies key entries k = 1
    omega

theorem sameLength {key : E → K} {other : F → K} {xs : List E} {ys : List F} (first : Apart key xs)
    (second : Apart other ys) (same : ∀ k, (find key xs k).isSome = (find other ys k).isSome) :
    xs.length = ys.length := by
  have named : ∀ e ∈ xs, (ys.map other).any (· == key e) = true := by
    intro e mem
    have found := same (key e)
    rw [findOf first mem (BEq.refl _)] at found
    obtain ⟨d, at_e⟩ := Option.isSome_iff_exists.mp found.symm
    obtain ⟨held, same_key⟩ := findMem at_e
    exact List.any_eq_true.mpr ⟨other d, List.mem_map_of_mem held, same_key⟩
  have held : ∀ d ∈ ys, (xs.map key).any (· == other d) = true := by
    intro d mem
    have found := same (other d)
    rw [findOf second mem (BEq.refl _)] at found
    obtain ⟨e, at_d⟩ := Option.isSome_iff_exists.mp found
    obtain ⟨held, same_key⟩ := findMem at_d
    exact List.any_eq_true.mpr ⟨key e, List.mem_map_of_mem held, same_key⟩
  have fewer := apartLength first (ys.map other) named
  have more := apartLength second (xs.map key) held
  rw [List.length_map] at fewer more
  exact Nat.le_antisymm fewer more

end TieredCache.Keyed

namespace TieredCache.Dict
open Keyed (Apart find without)
variable {K V : Type} [BEq K]

theorem findEntries (d : Dict K V) (k : K) :
    d.find? k = (find Prod.fst d.entries k).map Prod.snd := rfl

theorem eraseEntries (d : Dict K V) (k : K) : (d.erase k).entries = without Prod.fst d.entries k := rfl

theorem insertAbsent {d : Dict K V} {k : K} (absent : d.find? k = none) (v : V) :
    (d.insert k v).entries = d.entries ++ [(k, v)] := by
  simp [insert, contains, absent]

theorem findPermuted [EquivBEq K] {d : Dict K V} {entries : List (K × V)}
    (perm : d.entries.Perm entries) (apart : Apart Prod.fst entries) (k : K) :
    d.find? k = (find Prod.fst entries k).map Prod.snd := by
  rw [findEntries, Keyed.findPerm ((Keyed.apartPerm perm).mpr apart) perm]

end TieredCache.Dict
