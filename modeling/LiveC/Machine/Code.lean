import LiveC.Machine.Encoding

/-!
Code with labels and linked fields, and its layout: the choice of a size for each branch
and the bytes of the whole. Branches start out large and only ever shrink, so every pass
over the code leaves recorded starts at or above the final ones.
-/

namespace LiveC

/-- A place in code, by number. -/
abbrev Label := Nat

/-- An instruction with a field that is filled in when code is linked. -/
inductive Field where
  /-- Moves an address into a register. -/
  | address (d : Gp)
  /-- Calls a function at a distance. -/
  | call
  deriving DecidableEq, Repr

namespace Field

/-- The instruction with its field zero. -/
def bytes : Field → List UInt8
  | address d => (Instruction.movImm d 0).bytes
  | call => (Instruction.call ⟨0, false⟩).bytes

/-- The distance from the start of the instruction to the field. -/
def offset : Field → Nat
  | address _ => 2
  | call => 1

end Field

/-- An element of code; `ρ` says what a linked field refers to. -/
inductive Piece (ρ : Type) where
  | label (l : Label)
  | instr (i : Instruction Label)
  | linked (f : Field) (ref : ρ)
  deriving Repr

/-- Code with labels. -/
abbrev Code (ρ : Type) := List (Piece ρ)

/-- Code laid out at offset zero. -/
structure Assembled (ρ : Type) where
  code : List UInt8
  /-- The offset of each label. -/
  labels : List (Label × Nat)
  /-- The offset of each linked field. -/
  sites : List (Nat × ρ)
  deriving Repr

def Assembled.labelOffset? {ρ : Type} (a : Assembled ρ) (l : Label) : Option Nat :=
  a.labels.lookup l

namespace Code

/-- Gives every label an instruction of its own: a `nop` between two labels, a trap behind
one at the end. -/
def separate {ρ : Type} : Code ρ → Code ρ
  | [] => []
  | [.label l] => [.label l, .instr .trap]
  | .label a :: .label b :: rest => .label a :: .instr .nop :: separate (.label b :: rest)
  | p :: rest => p :: separate rest

/-- The labels with the number of the instruction behind each. -/
def labelIndices {ρ : Type} (i : Nat) : Code ρ → List (Label × Nat)
  | [] => []
  | .label l :: rest => (l, i) :: labelIndices i rest
  | _ :: rest => labelIndices (i + 1) rest

/-- The labels that occur. -/
def labels {ρ : Type} (c : Code ρ) : List Label := (labelIndices 0 c).map Prod.fst

/-! ### Sizes of branches -/

/-- A branch and the number of the instruction it goes to. -/
inductive Branch where
  | jmp (target : Nat)
  | jcc (target : Nat)
  | call

/-- An instruction whose size is being settled. -/
structure Slot where
  size : Nat
  branch : Option Branch
  /-- Whether the size is final. -/
  done : Bool

/-- The slot of an element before any pass, with the largest size it may take. -/
def slot? {ρ : Type} (indices : List (Label × Nat)) : Piece ρ → Option Slot
  | .label _ => none
  | .linked f _ => some ⟨f.bytes.length, none, true⟩
  | .instr i =>
    let index (l : Label) : Nat := (indices.lookup l).getD 0
    some <| match i with
      | .jmp l => ⟨6, some (.jmp (index l)), false⟩
      | .jcc _ l => ⟨8, some (.jcc (index l)), false⟩
      | .call _ => ⟨6, some .call, false⟩
      | i => ⟨(i.map fun _ => (⟨0, false⟩ : Jump)).bytes.length, none, true⟩

/-- The starts of consecutive slots. -/
def startsFrom (ip : Nat) : List Slot → List Nat
  | [] => []
  | s :: rest => ip :: startsFrom (ip + s.size) rest

/-- The distance within which a branch is looked at again. -/
def reviewFactor : Int := 15

/-- Settles a branch that ends at `ip` plus its size, if it is still open: short if the
distance, less what is certain to be saved, fits a byte. -/
def shrink (s : Slot) (near target ip gained : Nat) : Slot :=
  if s.done then s
  else
    let distance : Int := (target : Int) - (ip + 2)
    let distance := if 0 ≤ distance then distance - gained else distance
    if -128 ≤ distance && distance ≤ 127 then { s with size := min s.size 2, done := true }
    else
      let far := distance < reviewFactor * (-128) || reviewFactor * 127 < distance
      { s with size := min s.size near, done := far }

/-- One pass: goes through the slots from number `i` on at `ip`, `gained` bytes having been
saved so far, with the recorded starts. Gives the slots, the starts and what was saved. -/
def pass (i ip gained : Nat) (starts : Array Nat) : List Slot → List Slot × Array Nat × Nat
  | [] => ([], starts, gained)
  | s :: rest =>
    let starts := starts.setIfInBounds i ip
    let s' := match s.branch with
      | none => s
      | some .call => { s with size := min s.size 5, done := true }
      | some (.jmp target) => shrink s 5 (starts.getD target 0) ip gained
      | some (.jcc target) => shrink s 6 (starts.getD target 0) ip gained
    let (slots, starts, total) := pass (i + 1) (ip + s'.size) (gained + (s.size - s'.size)) starts rest
    (s' :: slots, starts, total)

/-- Repeats passes until one saves nothing, up to a number of passes. -/
def settle : Nat → List Slot → Array Nat → List Slot × Array Nat
  | 0, slots, starts => (slots, starts)
  | n + 1, slots, starts =>
    let (slots, starts, gained) := pass 0 0 0 starts slots
    if gained = 0 then (slots, starts) else settle n slots starts

/-- How many passes are made. -/
def maxPasses : Nat := 5

/-! ### Layout -/

/-- The bytes of an element of a size at an offset, over the offsets of labels. -/
def pieceBytes {ρ : Type} (target : Label → Nat) (start size : Nat) : Piece ρ → List UInt8
  | .label _ => []
  | .linked f _ => f.bytes
  | .instr i =>
    (i.map fun l =>
      (⟨BitVec.ofInt 32 ((target l : Int) - (start + size)), size == 2⟩ : Jump)).bytes

/-- Writes the elements at their starts. -/
def emit {ρ : Type} (target : Label → Nat) : Code ρ → List Slot → List Nat →
    List UInt8 × List (Nat × ρ)
  | .label _ :: rest, slots, starts => emit target rest slots starts
  | p :: rest, s :: slots, start :: starts =>
    let (bytes, sites) := emit target rest slots starts
    let sites := match p with
      | .linked f ref => (start + f.offset, ref) :: sites
      | _ => sites
    (pieceBytes target start s.size p ++ bytes, sites)
  | _, _, _ => ([], [])

/-- Lays out code in which every label that is used occurs. -/
def layout {ρ : Type} (c : Code ρ) : Assembled ρ :=
  let c := c.separate
  let indices := labelIndices 0 c
  let slots := c.filterMap (slot? indices)
  let (slots, starts) := settle maxPasses slots (startsFrom 0 slots).toArray
  let labels := indices.map fun (l, i) => (l, starts.getD i 0)
  let (code, sites) := emit (fun l => (labels.lookup l).getD 0) c slots starts.toList
  { code, labels, sites }

end Code

end LiveC
