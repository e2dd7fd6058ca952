import LiveC.CType.IntType

/-!
Types of the C subset, with sizes and alignments for a machine of 64-bit words, their
written form, integer promotion and the usual arithmetic conversions.
-/

namespace LiveC

/-- A type. Of a function, `unspecified` says that its parameter list is empty without
`void`, so that the arguments of a call are not checked. -/
inductive CType where
  | void
  | int (t : IntType)
  | double
  | pointer (pointee : CType)
  | array (element : CType) (length : Option Nat)
  | function (ret : CType) (params : List CType) (variadic unspecified : Bool)
  deriving Repr, Inhabited

/-- The signature of a function type. -/
structure Signature where
  ret : CType
  params : List CType
  variadic : Bool
  unspecified : Bool
  deriving Repr, Inhabited

namespace CType

mutual

def beq : CType → CType → Bool
  | void, void => true
  | int s, int t => s == t
  | double, double => true
  | pointer s, pointer t => beq s t
  | array s m, array t n => beq s t && m == n
  | function r ps v u, function r' ps' v' u' => beq r r' && beqAll ps ps' && v == v' && u == u'
  | _, _ => false

def beqAll : List CType → List CType → Bool
  | [], [] => true
  | s :: ss, t :: ts => beq s t && beqAll ss ts
  | _, _ => false

end

mutual

theorem eq_of_beq {s t : CType} (h : beq s t = true) : s = t := by
  cases s <;> cases t <;> simp only [beq, Bool.and_eq_true, Bool.false_eq_true] at h
  · rfl
  · rw [LawfulBEq.eq_of_beq h]
  · rfl
  · rw [eq_of_beq h]
  · rw [eq_of_beq h.1, LawfulBEq.eq_of_beq h.2]
  · obtain ⟨⟨⟨hr, hp⟩, hv⟩, hu⟩ := h
    rw [eq_of_beq hr, eq_of_beqAll hp, LawfulBEq.eq_of_beq hv, LawfulBEq.eq_of_beq hu]

theorem eq_of_beqAll {ss ts : List CType} (h : beqAll ss ts = true) : ss = ts := by
  cases ss <;> cases ts <;> simp only [beqAll, Bool.and_eq_true, Bool.false_eq_true] at h
  · rfl
  · rw [eq_of_beq h.1, eq_of_beqAll h.2]

end

mutual

theorem beq_self (t : CType) : beq t t = true := by
  cases t with
  | void | double => rfl
  | int t => simp [beq]
  | pointer t => simp [beq, beq_self t]
  | array t n => simp [beq, beq_self t]
  | function r ps v u => simp [beq, beq_self r, beqAll_self ps]

theorem beqAll_self (ts : List CType) : beqAll ts ts = true := by
  cases ts with
  | nil => rfl
  | cons t ts => simp [beqAll, beq_self t, beqAll_self ts]

end

instance : DecidableEq CType := fun s t =>
  if h : beq s t = true then isTrue (eq_of_beq h)
  else isFalse fun e => h (e ▸ beq_self s)

/-! ### Kinds of types -/

def isVoid : CType → Bool
  | void => true
  | _ => false

def isInteger : CType → Bool
  | int _ => true
  | _ => false

def isDouble : CType → Bool
  | double => true
  | _ => false

def isArithmetic : CType → Bool
  | int _ | double => true
  | _ => false

def isPointer : CType → Bool
  | pointer _ => true
  | _ => false

def isScalar : CType → Bool
  | int _ | double | pointer _ => true
  | _ => false

def isArray : CType → Bool
  | array _ _ => true
  | _ => false

def isFunction : CType → Bool
  | function .. => true
  | _ => false

def pointee? : CType → Option CType
  | pointer t => some t
  | _ => none

def signature? : CType → Option Signature
  | function ret params variadic unspecified => some ⟨ret, params, variadic, unspecified⟩
  | _ => none

def ofSignature (s : Signature) : CType := function s.ret s.params s.variadic s.unspecified

/-- The integer type of a scalar that a general register holds: a pointer is an
`unsigned long`. -/
def intType? : CType → Option IntType
  | int t => some t
  | pointer _ => some .ulong
  | _ => none

/-- Whether an object of the type has a known size. -/
def isComplete : CType → Bool
  | void | function .. => false
  | array element length => length.isSome && element.isComplete
  | _ => true

/-! ### Layout -/

/-- The largest object that is laid out: offsets into it fit 32 bits. -/
def maxObjectSize : Nat := 0x7FFFFFFF

/-- The size in bytes if a word can hold it. In pointer arithmetic `void` and functions
count one byte. -/
def checkedSize : CType → Option Nat
  | void | function .. => some 1
  | int t => some t.size
  | double | pointer _ => some 8
  | array element length => do
    let size ← element.checkedSize
    let total := size * length.getD 0
    if total < Word.modulus then some total else none

/-- The size in bytes, the largest word if it is out of range. -/
def size (t : CType) : Nat := t.checkedSize.getD (Word.modulus - 1)

def align : CType → Nat
  | array element _ => element.align
  | t => max 1 (min 8 t.size)

/-! ### Written form -/

def intName (t : IntType) : String :=
  let name := match t.width with
    | .w8 => "char"
    | .w16 => "short"
    | .w32 => "int"
    | .w64 => "long"
  if t.signed then name else "unsigned " ++ name

mutual

/-- The written form of a type. -/
def render : CType → String
  | void => "void"
  | double => "double"
  | int t => intName t
  | pointer t => render t ++ " *"
  | array element (some n) => s!"{render element}[{n}]"
  | array element none => render element ++ "[]"
  | function ret params variadic _ =>
    let listed := renderAll params
    let all := if variadic then listed ++ ["..."] else listed
    render ret ++ " (" ++ ", ".intercalate all ++ ")"

def renderAll : List CType → List String
  | [] => []
  | t :: ts => render t :: renderAll ts

end

/-! ### Conversions -/

/-- Integer promotion: what is narrower than `int` becomes `int`. -/
def promote : CType → CType
  | int t => if t.size < IntType.int.size then int .int else int t
  | t => t

/-- The common type of two promoted integer types: the wider one, and of two of one width
the unsigned one. -/
def commonInt (l r : IntType) : IntType :=
  if l = r then l
  else if l.width ≠ r.width then if r.size < l.size then l else r
  else ⟨l.width, false⟩

/-- The common type of two arithmetic operands. -/
def usualArithmetic (l r : CType) : CType :=
  if l.isDouble || r.isDouble then double
  else match promote l, promote r with
    | int l, int r => int (commonInt l r)
    | t, _ => t

end CType

end LiveC
