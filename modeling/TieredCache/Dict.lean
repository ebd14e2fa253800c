/-! Finite maps as lists of entries. Keys are told apart by `==` alone. A key equal to one
already held keeps the spelling it was first stored under; only the value is replaced.
The order of entries is that of first storage and carries no meaning for callers. -/
namespace TieredCache

structure Dict (K V : Type) where
  entries : List (K × V)
  deriving DecidableEq, Repr

namespace Dict
variable {K V : Type} [BEq K]

def empty : Dict K V := ⟨[]⟩

def find? (d : Dict K V) (k : K) : Option V :=
  (d.entries.find? (fun e => e.1 == k)).map Prod.snd

def contains (d : Dict K V) (k : K) : Bool := (d.find? k).isSome

def size (d : Dict K V) : Nat := d.entries.length

def keys (d : Dict K V) : List K := d.entries.map Prod.fst

def insert (d : Dict K V) (k : K) (v : V) : Dict K V :=
  if d.contains k then ⟨d.entries.map (fun e => if e.1 == k then (e.1, v) else e)⟩
  else ⟨d.entries ++ [(k, v)]⟩

def erase (d : Dict K V) (k : K) : Dict K V := ⟨d.entries.filter (fun e => !(e.1 == k))⟩

def filter (d : Dict K V) (keep : K → V → Bool) : Dict K V :=
  ⟨d.entries.filter (fun e => keep e.1 e.2)⟩

theorem containsFind (d : Dict K V) (k : K) : d.contains k = (d.find? k).isSome := rfl

theorem equalSplit [EquivBEq K] {a k j : K} (at_k : (a == k) = true) (other : (k == j) = false) :
    (a == j) = false := by
  cases at_j : a == j with
  | false => rfl
  | true => simp [BEq.trans (BEq.symm at_k) at_j] at other

theorem findEraseSame [EquivBEq K] (d : Dict K V) {k j : K} (same : (k == j) = true) :
    (d.erase k).find? j = none := by
  simp only [find?, erase, Option.map_eq_none_iff, List.find?_eq_none, List.mem_filter]
  intro e ⟨_, other⟩ eq
  simp [BEq.trans eq (BEq.symm same)] at other

theorem findEraseOther [EquivBEq K] (d : Dict K V) {k j : K} (other : (k == j) = false) :
    (d.erase k).find? j = d.find? j := by
  obtain ⟨entries⟩ := d
  induction entries with
  | nil => rfl
  | cons e rest ih =>
    simp only [find?, erase] at ih
    cases at_k : e.1 == k with
    | true => simpa [find?, erase, at_k, equalSplit at_k other] using ih
    | false =>
      cases at_j : e.1 == j with
      | true => simp [find?, erase, at_k, at_j]
      | false => simpa [find?, erase, at_k, at_j] using ih

theorem findInsertSame [EquivBEq K] (d : Dict K V) {k j : K} (v : V) (same : (k == j) = true) :
    (d.insert k v).find? j = some v := by
  obtain ⟨entries⟩ := d
  unfold insert contains
  split
  · rename_i held
    induction entries with
    | nil => simp [find?] at held
    | cons e rest ih =>
      simp only [find?] at ih held
      cases at_k : e.1 == k with
      | true => simp [find?, at_k, BEq.trans at_k same]
      | false =>
        have at_j : (e.1 == j) = false := by
          cases at_j : e.1 == j with
          | false => rfl
          | true => simp [BEq.trans at_j (BEq.symm same)] at at_k
        simp only [List.find?_cons, at_k] at held
        simpa [find?, at_k, at_j] using ih held
  · rename_i absent
    have none : entries.find? (fun e => e.1 == j) = none := by
      rw [List.find?_eq_none]
      intro e he eq
      apply absent
      simp only [find?, Option.isSome_map, List.find?_isSome]
      exact ⟨e, he, BEq.trans eq (BEq.symm same)⟩
    simp [find?, List.find?_append, none, same]

theorem findInsertOther [EquivBEq K] (d : Dict K V) {k j : K} (v : V) (other : (k == j) = false) :
    (d.insert k v).find? j = d.find? j := by
  obtain ⟨entries⟩ := d
  unfold insert contains
  split
  · rename_i held
    clear held
    induction entries with
    | nil => rfl
    | cons e rest ih =>
      simp only [find?] at ih
      cases at_k : e.1 == k with
      | true => simpa [find?, at_k, equalSplit at_k other] using ih
      | false =>
        cases at_j : e.1 == j with
        | true => simp [find?, at_k, at_j]
        | false => simpa [find?, at_k, at_j] using ih
  · simp [find?, List.find?_append, other]

end Dict
end TieredCache
