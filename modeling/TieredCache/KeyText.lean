import TieredCache.Key

/-! Two key types over text with an equality or a validity of their own. -/
namespace TieredCache

/-- Text as a key that ignores the case of the ASCII letters, and of those alone. The
spelling it was made with is kept. -/
structure CaselessText where
  text : String
  deriving Repr

namespace CaselessText

def folded (t : CaselessText) : String := t.text.map Char.toLower

instance : BEq CaselessText := ⟨fun a b => a.folded == b.folded⟩
instance : Ord CaselessText := ⟨fun a b => compare a.folded b.folded⟩
instance : Identity CaselessText where

theorem beqFolded (a b : CaselessText) : (a == b) = (a.folded == b.folded) := rfl

theorem lettersAlike {a b : CaselessText}
    (same : a.text.toList.map Char.toLower = b.text.toList.map Char.toLower) : (a == b) = true := by
  have folded : a.folded = b.folded := by
    rw [← String.toList_inj]
    unfold CaselessText.folded
    rw [String.toList_map, String.toList_map, same]
  rw [beqFolded, folded]
  exact BEq.refl b.folded

instance : EquivBEq CaselessText where
  rfl {a} := beq_self_eq_true a.folded
  symm {a b} h := BEq.symm (α := String) (a := a.folded) (b := b.folded) h
  trans {a b c} h k := BEq.trans (α := String) (a := a.folded) (b := b.folded) (c := c.folded) h k

end CaselessText

structure NameText where
  text : String
  deriving DecidableEq, Repr

namespace NameText

instance : Ord NameText := ⟨fun a b => compare a.text b.text⟩
instance : Identity NameText := ⟨fun n => !n.text.isEmpty⟩

end NameText
end TieredCache
