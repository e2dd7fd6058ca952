import LiveC.Proofs.DataPlacement
import LiveC.Proofs.ParameterCode
import LiveC.Proofs.ValidObjects
import Mathlib.Data.Set.Basic

/-!
The slots of a frame over whole runs of requests. Each slot lies below all earlier ones, so they are
apart whatever sizes are asked for, and a request is refused only if the frame would get too large.
In words of 32 bits the same requests have the same answers, and no word leaves its range without
being caught.
-/

namespace LiveC

/-- A request for a slot, with an alignment up to 16 that is a power of two. -/
structure SlotRequest where
  size : Word
  align : Word
  power : ∃ k ≤ 4, align.toNat = 2 ^ k

namespace SlotRequest

/-- How many bytes the slot has. Even an empty object has one. -/
def extent (r : SlotRequest) : Nat := max r.size.toNat 1

/-- The bytes of a slot at an offset from the frame pointer. -/
def bytes (r : SlotRequest) (offset : Int) : Set Int :=
  {n | offset ≤ n ∧ n < offset + r.extent}

/-- The request for a machine word. -/
def word : SlotRequest := ⟨8, 8, 3, by decide⟩

variable (r : SlotRequest)

theorem extent_pos : 0 < r.extent := by
  unfold extent
  omega

theorem align_bounds : 0 < r.align.toNat ∧ r.align.toNat ≤ 16 := by
  obtain ⟨k, small, align⟩ := r.power
  have upper : 2 ^ k ≤ 2 ^ 4 := Nat.pow_le_pow_right (by decide) small
  exact ⟨align ▸ Nat.two_pow_pos k, align ▸ upper⟩

end SlotRequest

namespace Frame

/-! ### Requests -/

/-- Asks for a slot. A frame that refuses it stays as it is. -/
def ask (f : Frame) (r : SlotRequest) : Option Int × Frame :=
  match f.allocate? r.size.toNat r.align.toNat with
  | some (offset, f') => (some offset, f')
  | none => (none, f)

/-- What has been asked for, with the answers. -/
abbrev History := List (SlotRequest × Option Int)

/-- Asks for one slot after the other. -/
def askAll (f : Frame) : List SlotRequest → History × Frame
  | [] => ([], f)
  | r :: requests =>
    let (history, f') := askAll (f.ask r).2 requests
    ((r, (f.ask r).1) :: history, f')

variable {f f' : Frame} {r : SlotRequest} {offset : Int} {history : History}

/-- How much of a frame is used with another slot: a slot ends at a multiple of its alignment. -/
def usedWith (f : Frame) (r : SlotRequest) : Nat := alignUp (f.used + r.extent) r.align.toNat

theorem usedWith_bounds (f : Frame) (r : SlotRequest) :
    f.used + r.extent ≤ f.usedWith r ∧ f.usedWith r < f.used + r.extent + r.align.toNat :=
  ⟨le_alignUp _ r.align_bounds.1, alignUp_lt _ r.align_bounds.1⟩

/-- Clearing the low bits of what is one less than a unit further rounds up. -/
theorem alignDown_stop (r : SlotRequest) {n : Nat} (bound : n + (r.align.toNat - 1) < numberLimit) :
    alignDown (n + (r.align.toNat - 1)) r.align.toNat = alignUp n r.align.toNat := by
  obtain ⟨k, small, align⟩ := r.power
  have positive := r.align_bounds.1
  rw [align] at bound positive ⊢
  rw [Lowering.alignDown_pow bound (Nat.le_trans small (by decide)), alignUp, Nat.mul_comm,
    Nat.add_sub_assoc positive]

/-- A slot is refused only if the frame would get too large. -/
theorem allocate?_eq (f : Frame) (r : SlotRequest) :
    f.allocate? r.size.toNat r.align.toNat = if f.usedWith r ≤ maxSize
      then some (-(f.usedWith r : Int), ⟨f.slots ++ [-(f.usedWith r : Int)], f.usedWith r⟩)
      else none := by
  obtain ⟨positive, small⟩ := r.align_bounds
  have align : max r.align.toNat 1 = r.align.toNat := Nat.max_eq_left positive
  have extent : max r.size.toNat 1 = r.extent := rfl
  have lower := (f.usedWith_bounds r).1
  have limit : numberLimit = 0x100000000 := rfl
  have largest : maxSize = 0x7FFFFFF0 := rfl
  unfold allocate?
  simp only [align, extent]
  by_cases bound : f.used + r.extent + (r.align.toNat - 1) < numberLimit
  · rw [alignDown_stop r bound]
    refine if_congr ?_ rfl rfl
    rw [and_iff_right (by omega), and_iff_right bound]
    rfl
  · rw [if_neg fun fits => bound fits.2.1, if_neg (by omega)]

theorem ask_eq (f : Frame) (r : SlotRequest) : f.ask r = if f.usedWith r ≤ maxSize
    then (some (-(f.usedWith r : Int)), ⟨f.slots ++ [-(f.usedWith r : Int)], f.usedWith r⟩)
    else (none, f) := by
  rw [ask, allocate?_eq]
  by_cases fits : f.usedWith r ≤ maxSize
  · rw [if_pos fits, if_pos fits]
  · rw [if_neg fits, if_neg fits]

theorem slots_of_ask (h : f.ask r = (some offset, f')) : f'.slots = f.slots ++ [offset] := by
  rw [ask_eq] at h
  split at h
  · cases h
    rfl
  · cases h

theorem map_fst_askAll (f : Frame) (requests : List SlotRequest) :
    (f.askAll requests).1.map Prod.fst = requests := by
  induction requests generalizing f with
  | nil => rfl
  | cons r requests ih => exact congrArg (r :: ·) (ih _)

/-! ### The account of a run -/

/-- A frame whose slots are what the answers so far say. -/
structure Tracks (history : History) (f : Frame) : Prop where
  slots : f.slots = history.filterMap Prod.snd
  lowest : f.slots.getLast?.getD 0 = -(f.used : Int)
  used_le : f.used ≤ maxSize
  offsets : ∀ (r : SlotRequest) (offset : Int), (r, some offset) ∈ history →
    (r.align.toNat : Int) ∣ offset ∧ -(f.used : Int) ≤ offset ∧ offset + r.extent ≤ 0
  descending : history.Pairwise fun e e' => ∀ offset offset' : Int,
    e.2 = some offset → e'.2 = some offset' → offset' + e'.1.extent ≤ offset

theorem Tracks.start : Tracks [] {} where
  slots := rfl
  lowest := rfl
  used_le := Nat.zero_le _
  offsets _ _ member := by cases member
  descending := .nil

/-- A slot goes below all that there are. -/
theorem Tracks.step (h : Tracks history f) (r : SlotRequest) :
    Tracks (history ++ [(r, (f.ask r).1)]) (f.ask r).2 := by
  rw [ask_eq]
  by_cases fits : f.usedWith r ≤ maxSize
  case neg =>
    rw [if_neg fits]
    refine ⟨by simpa using h.slots, h.lowest, h.used_le, fun r' offset member => ?_, ?_⟩
    · exact h.offsets r' offset (by simpa using member)
    · refine List.pairwise_append.mpr ⟨h.descending, List.pairwise_singleton .., ?_⟩
      rintro e - e' last offset offset' - given
      cases List.mem_singleton.mp last
      cases given
  case pos =>
    rw [if_pos fits]
    have lower := (f.usedWith_bounds r).1
    have aligned : (r.align.toNat : Int) ∣ -(f.usedWith r : Int) :=
      Int.dvd_neg.mpr (Int.natCast_dvd_natCast.mpr (dvd_alignUp ..))
    refine ⟨by simpa using h.slots, by simp, fits, fun r' offset member => ?_, ?_⟩
    · rcases List.mem_append.mp member with earlier | last
      · obtain ⟨divides, inside, below⟩ := h.offsets r' offset earlier
        exact ⟨divides, by dsimp only; omega, below⟩
      · cases List.mem_singleton.mp last
        exact ⟨aligned, Int.le_refl _, by omega⟩
    · refine List.pairwise_append.mpr ⟨h.descending, List.pairwise_singleton .., ?_⟩
      rintro ⟨r', answer⟩ earlier e' last offset offset' rfl given
      cases List.mem_singleton.mp last
      cases given
      have inside := (h.offsets r' offset earlier).2.1
      dsimp only
      omega

theorem Tracks.askAll (h : Tracks history f) (requests : List SlotRequest) :
    Tracks (history ++ (f.askAll requests).1) (f.askAll requests).2 := by
  induction requests generalizing history f with
  | nil => simpa [Frame.askAll] using h
  | cons r requests ih => simpa [Frame.askAll] using ih (h.step r)

theorem size_bounds (bound : f.used ≤ maxSize) :
    16 ∣ f.size ∧ f.used ≤ f.size ∧ f.size ≤ maxSize := by
  have largest : maxSize = 0x7FFFFFF0 := rfl
  unfold size
  omega

/-- The bytes of a frame, which lie below the frame pointer. -/
def bytes (f : Frame) : Set Int := {n | -(f.size : Int) ≤ n ∧ n < 0}

/-- What a frame promises behind a run of requests. -/
structure Promises (history : History) (f : Frame) : Prop where
  slots : f.slots = history.filterMap Prod.snd
  /-- A slot lies in the frame, at a multiple of its alignment. -/
  offsets : ∀ (r : SlotRequest) (offset : Int), (r, some offset) ∈ history →
    offset < 0 ∧ (r.align.toNat : Int) ∣ offset ∧ r.bytes offset ⊆ f.bytes
  apart : history.Pairwise fun e e' => ∀ offset offset',
    e.2 = some offset → e'.2 = some offset' → e.1.bytes offset ∩ e'.1.bytes offset' = ∅
  used : f.slots.getLast?.getD 0 = -(f.used : Int)
  /-- One more request is refused, without any effect, if it makes the frame too large. -/
  refuses : ∀ r : SlotRequest, ∃ rounded,
    IsLeast {n | f.used + r.extent ≤ n ∧ r.align.toNat ∣ n} rounded ∧
      ((f.ask r).1 = none ↔ maxSize < rounded) ∧
      (rounded ≤ maxSize → (f.ask r).1 = some (-(rounded : Int))) ∧
      ((f.ask r).1 = none → (f.ask r).2 = f)
  size : 16 ∣ f.size ∧ f.size ≤ maxSize

theorem Tracks.promises (h : Tracks history f) : Promises history f where
  slots := h.slots
  offsets r offset member := by
    obtain ⟨divides, inside, below⟩ := h.offsets r offset member
    have used := (size_bounds h.used_le).2.1
    have some := r.extent_pos
    refine ⟨by omega, divides, fun n inSlot => ?_⟩
    obtain ⟨lower, upper⟩ := inSlot
    exact ⟨by omega, by omega⟩
  apart := h.descending.imp fun {e e'} below offset offset' given given' => by
    refine Set.eq_empty_of_forall_notMem fun n both => ?_
    obtain ⟨⟨lower, -⟩, -, upper⟩ := both
    have between := below offset offset' given given'
    omega
  used := h.lowest
  refuses r := by
    refine ⟨f.usedWith r, isLeast_alignUp _ r.align_bounds.1, ?_⟩
    rw [ask_eq]
    by_cases fits : f.usedWith r ≤ maxSize
    · rw [if_pos fits]
      exact ⟨iff_of_false nofun (Nat.not_lt.mpr fits), fun _ => rfl, nofun⟩
    · rw [if_neg fits]
      exact ⟨iff_of_true rfl (Nat.lt_of_not_le fits), fun other => absurd other fits,
        fun _ => rfl⟩
  size := ⟨(size_bounds h.used_le).1, (size_bounds h.used_le).2.2⟩

end Frame

/-! ### Words -/

/-- A frame in words of 32 bits. The offsets are signed words. -/
structure WordFrame where
  slots : List (BitVec 32) := []
  used : BitVec 32 := 0

/-- What ends a computation in words. -/
inductive WordStop where
  /-- A result is no word, and nothing catches it. -/
  | overflow
  | refused

/-- A computation on a frame. Where it ends, what it has written so far stays. -/
abbrev Allocating := EStateM WordStop WordFrame

namespace Allocating

/-- A number as a word, if it is one. -/
def word (n : Nat) : Allocating (BitVec 32) :=
  if n < Frame.numberLimit then pure (BitVec.ofNat 32 n) else throw .refused

/-- A sum that is caught if it is no word. -/
def sum (a b : BitVec 32) : Allocating (BitVec 32) := word (a.toNat + b.toNat)

/-- A difference that is not caught. -/
def difference (a b : BitVec 32) : Allocating (BitVec 32) :=
  if b.toNat ≤ a.toNat then pure (a - b) else throw .overflow

/-- A word as a signed one. -/
def signed (a : BitVec 32) : Allocating (BitVec 32) :=
  if a.toNat < 2 ^ 31 then pure a else throw .refused

/-- The opposite of a signed word, which is not caught. -/
def opposite (a : BitVec 32) : Allocating (BitVec 32) :=
  if a = BitVec.intMin 32 then throw .overflow else pure (-a)

/-- Extends the frame by a slot, which starts at its new end. -/
def extend (used : BitVec 32) : Allocating (BitVec 32) := do
  if Frame.maxSize < used.toNat then throw .refused
  modify fun w => { w with used }
  let offset ← opposite (← signed used)
  modify fun w => { w with slots := w.slots ++ [offset] }
  return offset

/-- Allocates a slot. -/
def slot (size align : Word) : Allocating (BitVec 32) := do
  let align ← word (max align.toNat 1)
  let size ← word (max size.toNat 1)
  let stop ← sum (← get).used size
  let mask ← difference align 1
  let stop ← sum stop mask
  extend (stop &&& ~~~mask)

end Allocating

namespace WordFrame

/-- Asks for a slot. -/
def ask (w : WordFrame) (r : SlotRequest) : Except WordStop (Option (BitVec 32) × WordFrame) :=
  match Allocating.slot r.size r.align w with
  | .ok offset w' => .ok (some offset, w')
  | .error .refused w' => .ok (none, w')
  | .error .overflow _ => .error .overflow

def askAll (w : WordFrame) :
    List SlotRequest → Except WordStop (List (Option (BitVec 32)) × WordFrame)
  | [] => .ok ([], w)
  | r :: requests => do
    let (answer, w) ← w.ask r
    let (answers, w) ← askAll w requests
    return (answer :: answers, w)

/-- The bytes that the stack pointer moves by, with a sum that is not caught. -/
def size (w : WordFrame) : Except WordStop (BitVec 32) :=
  if w.used.toNat + 15 < Frame.numberLimit then .ok ((w.used + 15) &&& ~~~15) else .error .overflow

/-- Words that stand for a frame which is not too large. -/
structure Holds (w : WordFrame) (f : Frame) : Prop where
  slots : w.slots.map BitVec.toInt = f.slots
  used : w.used.toNat = f.used
  used_le : f.used ≤ Frame.maxSize

end WordFrame

namespace Allocating

variable {α β : Type} {w w' : WordFrame} {x : Allocating α} {a : α} {n : Nat} {f : Frame}
  {r : SlotRequest}

theorem bind_ok {g : α → Allocating β} (run : x w = .ok a w') : (x >>= g) w = g a w' := by
  simp only [bind, EStateM.bind, run]

theorem bind_word {g : BitVec 32 → Allocating β} : (word n >>= g) w =
    if n < Frame.numberLimit then g (BitVec.ofNat 32 n) w else .error .refused w := by
  unfold word
  split <;> rfl

theorem toNat_word (h : n < Frame.numberLimit) : (BitVec.ofNat 32 n).toNat = n :=
  (BitVec.toNat_ofNat n 32).trans (Nat.mod_eq_of_lt h)

/-- What clearing the bits of a mask leaves. -/
theorem toNat_clear {align : Nat} (h : n < Frame.numberLimit) (positive : 0 < align)
    (small : align < Frame.numberLimit) :
    (BitVec.ofNat 32 n &&& ~~~BitVec.ofNat 32 (align - 1)).toNat = Frame.alignDown n align := by
  have limit : Frame.numberLimit = 2 ^ 32 := rfl
  rw [BitVec.toNat_and, BitVec.toNat_not, toNat_word h, toNat_word (by omega), Frame.alignDown,
    limit]
  congr 1
  omega

/-- The mask of an alignment, which is never zero, is a word. -/
theorem difference_one {align : Nat} (positive : 0 < align) (small : align < Frame.numberLimit) :
    difference (BitVec.ofNat 32 align) 1 w = .ok (BitVec.ofNat 32 (align - 1)) w := by
  have one : (1 : BitVec 32).toNat ≤ align := positive
  rw [difference, toNat_word small, if_pos one]
  exact congrArg (EStateM.Result.ok · w) (BitVec.ofNat_sub_ofNat_of_le _ _ (by decide) positive)

/-- A slot is refused before anything is written if a sum is no word. -/
theorem slot_eq (holds : w.Holds f) : slot r.size r.align w =
    if f.used + r.extent + (r.align.toNat - 1) < Frame.numberLimit
      then extend (BitVec.ofNat 32 (f.usedWith r)) w else .error .refused w := by
  obtain ⟨positive, small⟩ := r.align_bounds
  have limit : Frame.numberLimit = 0x100000000 := rfl
  have extent : max r.size.toNat 1 = r.extent := rfl
  have first : (get : Allocating WordFrame) w = .ok w w := rfl
  have align : r.align.toNat < Frame.numberLimit := by omega
  have mask : (BitVec.ofNat 32 (r.align.toNat - 1)).toNat = r.align.toNat - 1 :=
    toNat_word (by omega)
  rw [slot, Nat.max_eq_left positive, bind_word, if_pos align, extent, bind_word]
  by_cases size : r.extent < Frame.numberLimit
  case neg => rw [if_neg size, if_neg (by omega)]
  rw [if_pos size, bind_ok first, sum, holds.used, toNat_word size, bind_word]
  by_cases stop : f.used + r.extent < Frame.numberLimit
  case neg => rw [if_neg stop, if_neg (by omega)]
  rw [if_pos stop, bind_ok (difference_one positive align), sum, toNat_word stop, mask, bind_word]
  by_cases bound : f.used + r.extent + (r.align.toNat - 1) < Frame.numberLimit
  case neg => rw [if_neg bound, if_neg bound]
  rw [if_pos bound, if_pos bound]
  congr 1
  apply BitVec.eq_of_toNat_eq
  have upper := (f.usedWith_bounds r).2
  have used : f.usedWith r < Frame.numberLimit := by omega
  rw [toNat_clear bound positive align, Frame.alignDown_stop r bound, toNat_word used]
  rfl

theorem extend_refused (beyond : Frame.maxSize < n) (number : n < Frame.numberLimit) :
    extend (BitVec.ofNat 32 n) w = .error .refused w := by
  rw [extend, toNat_word number, if_pos beyond]
  rfl

/-- A word that is within the limit of a frame has an opposite, which is the offset. -/
theorem extend_ok (fits : n ≤ Frame.maxSize) :
    ∃ offset : BitVec 32, offset.toInt = -(n : Int) ∧
      extend (BitVec.ofNat 32 n) w = .ok offset ⟨w.slots ++ [offset], BitVec.ofNat 32 n⟩ := by
  have largest : Frame.maxSize = 0x7FFFFFF0 := rfl
  have value : (BitVec.ofNat 32 n).toNat = n := toNat_word (Nat.lt_of_le_of_lt fits (by decide))
  have positive : (BitVec.ofNat 32 n).toInt = n := by
    rw [BitVec.toInt_eq_toNat_of_lt (by omega), value]
  have regular : BitVec.ofNat 32 n ≠ BitVec.intMin 32 := by
    intro same
    have least := congrArg BitVec.toNat same
    rw [value, BitVec.toNat_intMin] at least
    omega
  refine ⟨-BitVec.ofNat 32 n, ?_, ?_⟩
  · rw [BitVec.toInt_neg_of_ne_intMin regular, positive]
  · have within : ¬Frame.maxSize < (BitVec.ofNat 32 n).toNat := by omega
    have small : (BitVec.ofNat 32 n).toNat < 2 ^ 31 := by omega
    rw [extend, if_neg within, signed, if_pos small]
    change (opposite (BitVec.ofNat 32 n) >>= _) _ = _
    rw [opposite, if_neg regular]
    rfl

end Allocating

namespace WordFrame

variable {w : WordFrame} {f : Frame}

/-- A request in words has the same answer, and one that is refused has no effect. -/
theorem ask_eq_ok (holds : w.Holds f) (r : SlotRequest) :
    ∃ answer w', w.ask r = .ok (answer, w') ∧ answer.map BitVec.toInt = (f.ask r).1 ∧
      w'.Holds (f.ask r).2 ∧ (answer = none → w' = w) := by
  have lower := (f.usedWith_bounds r).1
  have largest : Frame.maxSize = 0x7FFFFFF0 := rfl
  have limit : Frame.numberLimit = 0x100000000 := rfl
  rw [Frame.ask_eq]
  by_cases fits : f.usedWith r ≤ Frame.maxSize
  case pos =>
    obtain ⟨offset, value, run⟩ := Allocating.extend_ok (w := w) fits
    have bound : f.used + r.extent + (r.align.toNat - 1) < Frame.numberLimit := by
      have small := r.align_bounds.2
      omega
    have slot : Allocating.slot r.size r.align w = _ :=
      (Allocating.slot_eq holds).trans ((if_pos bound).trans run)
    rw [if_pos fits]
    refine ⟨some offset, _, by rw [ask, slot], congrArg some value, ⟨?_, ?_, fits⟩, nofun⟩
    · rw [List.map_append, holds.slots, List.map_singleton, value]
    · exact Allocating.toNat_word (by omega)
  case neg =>
    -- Either a sum is no word, or what it comes to is beyond the limit of a frame.
    have slot : Allocating.slot r.size r.align w = .error .refused w := by
      rw [Allocating.slot_eq holds]
      split
      case isTrue bound =>
        have upper := (f.usedWith_bounds r).2
        exact Allocating.extend_refused (Nat.lt_of_not_le fits) (by omega)
      case isFalse => rfl
    rw [if_neg fits]
    exact ⟨none, w, by rw [ask, slot], rfl, holds, fun _ => rfl⟩

theorem askAll_eq_ok (holds : w.Holds f) (requests : List SlotRequest) :
    ∃ answers w', w.askAll requests = .ok (answers, w') ∧
      answers.map (Option.map BitVec.toInt) = (f.askAll requests).1.map Prod.snd ∧
      w'.Holds (f.askAll requests).2 := by
  induction requests generalizing w f with
  | nil => exact ⟨[], w, rfl, rfl, holds⟩
  | cons r requests ih =>
      obtain ⟨answer, w', first, same, holds, -⟩ := ask_eq_ok holds r
      obtain ⟨answers, w'', others, sames, holds⟩ := ih holds
      refine ⟨answer :: answers, w'', ?_, ?_, holds⟩
      · exact (except_bind_of_ok first).trans (except_bind_of_ok others)
      · rw [List.map_cons, same, sames]
        rfl

theorem size_eq_ok (holds : w.Holds f) : ∃ n, w.size = .ok n ∧ n.toNat = f.size := by
  obtain ⟨-, used, bound⟩ := holds
  have largest : Frame.maxSize = 0x7FFFFFF0 := rfl
  have limit : Frame.numberLimit = 0x100000000 := rfl
  have word : f.used + 15 < Frame.numberLimit := by omega
  refine ⟨_, by rw [size, used, if_pos word], ?_⟩
  have sum : w.used + 15 = BitVec.ofNat 32 (f.used + 15) := by
    apply BitVec.eq_of_toNat_eq
    rw [BitVec.toNat_add, used, BitVec.toNat_ofNat]
    rfl
  have mask : (15 : BitVec 32) = BitVec.ofNat 32 (16 - 1) := rfl
  have unit : (16 : Nat) = 2 ^ 4 := rfl
  rw [sum, mask, Allocating.toNat_clear word (by decide) (by decide), unit,
    Lowering.alignDown_pow word (by decide), Nat.mul_comm]
  rfl

end WordFrame

namespace Frame

/-- A frame keeps its promises behind every run of requests. In words of 32 bits, the run gives the
same answers and the same frame, and so does one more request; nothing leaves the words without
being caught. -/
theorem slots_promised (requests : List SlotRequest) :
    (askAll {} requests).1.map Prod.fst = requests ∧
      Promises (askAll {} requests).1 (askAll {} requests).2 ∧
      ∃ answers w, WordFrame.askAll {} requests = .ok (answers, w) ∧
        answers.map (Option.map BitVec.toInt) = (askAll {} requests).1.map Prod.snd ∧
        w.Holds (askAll {} requests).2 ∧
        (∀ r, ∃ answer w', w.ask r = .ok (answer, w') ∧
          answer.map BitVec.toInt = ((askAll {} requests).2.ask r).1 ∧
            (answer = none → w' = w)) ∧
        ∃ size, w.size = .ok size ∧ size.toNat = (askAll {} requests).2.size := by
  have start : WordFrame.Holds {} {} := ⟨rfl, rfl, Nat.zero_le _⟩
  obtain ⟨answers, w, run, same, holds⟩ := WordFrame.askAll_eq_ok start requests
  refine ⟨map_fst_askAll .., (Tracks.start.askAll requests).promises, answers, w, run, same,
    holds, fun r => ?_, WordFrame.size_eq_ok holds⟩
  obtain ⟨answer, w', one, answered, -, kept⟩ := WordFrame.ask_eq_ok holds r
  exact ⟨answer, w', one, answered, kept⟩

/-- A byte goes right below a word, and no slot fits behind two that fill the frame. -/
example :
    let bytes (size : Word) : SlotRequest := ⟨size, 1, 0, by decide⟩
    let int : SlotRequest := ⟨4, 4, 2, by decide⟩
    (askAll {} [int, .word, bytes 1]).2.slots = [-4, -16, -17] ∧
      (askAll {} [bytes 0x7FFFFFE0, ⟨9, 8, 3, by decide⟩, bytes (-1)]).1.map Prod.snd =
        [some (-0x7FFFFFE0), some (-0x7FFFFFF0), none] := by
  decide +kernel

end Frame

/-! ### Variables -/

theorem CType.size_lt (t : CType) : t.size < Word.modulus := by
  have modulus : Word.modulus = 0x10000000000000000 := rfl
  cases t with
  | int t =>
      obtain ⟨w, s⟩ := t
      cases w <;> simp [size, checkedSize, IntType.size, Width.bytes, modulus]
  | array element length =>
      unfold size checkedSize
      cases element.checkedSize with
      | none => exact Nat.sub_lt (by decide) Nat.one_pos
      | some size =>
          dsimp only [Option.bind_eq_bind, Option.bind_some]
          split
          case isTrue small => exact small
          case isFalse => exact Nat.sub_lt (by decide) Nat.one_pos
  | void | double | pointer | function => simp [size, checkedSize, modulus]

namespace SlotRequest

/-- The request for an object of a type. -/
def ofType (ty : CType) : SlotRequest where
  size := BitVec.ofNat 64 ty.size
  align := BitVec.ofNat 64 ty.align
  power := by
    rcases ty.isAlignment with align | align | align | align <;> rw [align]
    · exact ⟨0, by decide⟩
    · exact ⟨1, by decide⟩
    · exact ⟨2, by decide⟩
    · exact ⟨3, by decide⟩

/-- What a function asks for: a word for each of so many parameters, and objects for the other
variables. -/
def ofLocals (params : Nat) : List LocalVar → List SlotRequest
  | [] => []
  | v :: rest => (if 0 < params then word else ofType v.ty) :: ofLocals (params - 1) rest

end SlotRequest

namespace Lowering

variable {f f' frame : Frame} {params : Nat} {vars : List LocalVar}

theorem ask_ofLocal (f : Frame) (params : Nat) (v : LocalVar) :
    f.ask (if 0 < params then .word else .ofType v.ty) =
      match if 0 < params then f.allocate? 8 8 else f.allocate? v.ty.size v.ty.align with
      | some (offset, f') => (some offset, f')
      | none => (none, f) := by
  have size : (BitVec.ofNat 64 v.ty.size).toNat = v.ty.size :=
    (BitVec.toNat_ofNat ..).trans (Nat.mod_eq_of_lt v.ty.size_lt)
  have align : (BitVec.ofNat 64 v.ty.align).toNat = v.ty.align := by
    rcases v.ty.isAlignment with align | align | align | align <;> rw [align] <;> rfl
  split
  · rfl
  · rw [Frame.ask, SlotRequest.ofType, size, align]

/-- The slots of variables are those of a run in which nothing is refused. -/
theorem askAll_of_allocateLocals (run : allocateLocals f params vars = .ok f') :
    ∃ offsets, f'.slots = f.slots ++ offsets ∧ f.askAll (SlotRequest.ofLocals params vars) =
      ((SlotRequest.ofLocals params vars).zip (offsets.map some), f') := by
  induction vars generalizing f params with
  | nil =>
      cases run
      exact ⟨[], (List.append_nil _).symm, rfl⟩
  | cons v vars ih =>
      have asked := ask_ofLocal f params v
      unfold allocateLocals at run
      cases slot : if 0 < params then f.allocate? 8 8 else f.allocate? v.ty.size v.ty.align with
      | none =>
          rw [slot] at run
          cases run
      | some r =>
          rw [slot] at run asked
          obtain ⟨offsets, slots, others⟩ := ih run
          have first := Frame.slots_of_ask asked
          refine ⟨r.1 :: offsets, ?_, ?_⟩
          · rw [slots, first, List.append_assoc, List.singleton_append]
          · rw [SlotRequest.ofLocals, Frame.askAll, asked, others]
            rfl

/-- The variables of a function lie apart from each other in its frame. -/
theorem variables_apart (run : allocateLocals {} params vars = .ok frame) :
    let slots := (SlotRequest.ofLocals params vars).zip frame.slots
    (slots.Pairwise fun a b => a.1.bytes a.2 ∩ b.1.bytes b.2 = ∅) ∧
      ∀ slot ∈ slots, slot.1.bytes slot.2 ⊆ frame.bytes := by
  obtain ⟨offsets, slots, asked⟩ := askAll_of_allocateLocals run
  rw [List.nil_append] at slots
  have promises := (Frame.Tracks.start.askAll (SlotRequest.ofLocals params vars)).promises
  rw [asked, List.nil_append, List.zip_map_right] at promises
  rw [slots]
  refine ⟨(List.pairwise_map.mp promises.apart).imp fun apart => apart _ _ rfl rfl, ?_⟩
  intro slot member
  exact (promises.offsets slot.1 slot.2 (List.mem_map_of_mem member)).2.2

end Lowering

end LiveC
