import LiveC.Link.Image

/-!
Names for ranges of addresses, so that an address can be shown by what lies there.
-/

namespace LiveC

/-- A range of addresses with a name. -/
structure Place where
  name : String
  base : Word
  size : Nat
  deriving DecidableEq, Repr

namespace Place

/-- Whether an address is in the range or at its end. -/
def reaches (p : Place) (a : Word) : Bool :=
  p.base.toNat ≤ a.toNat && a.toNat ≤ p.base.toNat + p.size

/-- The first place that reaches to an address, and the offset in it. -/
def describe? (places : List Place) (a : Word) : Option String :=
  (places.find? (·.reaches a)).map fun p => s!"{p.name}+{a.toNat - p.base.toNat}"

end Place

/-- The pages of the blocks of an image, with a mark in front of the names of their kinds. -/
def Image.places (i : Image) (mark : String) : List Place :=
  i.regions.map fun r => ⟨mark ++ r.kind.name, r.base, r.pages * pageSize⟩

end LiveC
