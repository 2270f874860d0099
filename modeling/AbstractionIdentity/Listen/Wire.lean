import AbstractionIdentity.Stream.Frame
import Mathlib.Data.Nat.Bitwise

/-!
# The words of the session protocol

Every message is a 32-bit header and a body. Bit 31 marks a session, bit 30 of a request a one-way
frame, and the low thirty bits are the length. In the other direction a word with bit 30 set has no
body, except the refusal of a caller's proof, which carries two bytes.
-/

namespace Listen

open Text Stream Bool

def sessionFlag : UInt32 := (1 : UInt32) <<< 31

def oneWayFlag : UInt32 := (1 : UInt32) <<< 30

def lengthMask : UInt32 := oneWayFlag - 1

def sessionAccept : UInt32 := sessionFlag

def sessionDecline : UInt32 := 0

def sessionUnsupported : UInt32 := oneWayFlag

def sessionClosing : UInt32 := 0xFFFFFFFF

def proofRefusalHeader : UInt32 := 0xFFFFFFFE

def isSession (w : UInt32) : Bool := w &&& sessionFlag ≠ 0

def isOneWay (w : UInt32) : Bool := w &&& oneWayFlag ≠ 0

def lengthOf (w : UInt32) : ℕ := (w &&& lengthMask).toNat

def defaultMaxFrame : UInt32 := 1024 * 1024

/-- The frame limit of a receiver or client: zero selects the default, and no
limit exceeds what a header can say. -/
def frameLimit (n : UInt32) : ℕ :=
  if n = 0 then defaultMaxFrame.toNat
  else if lengthMask < n then lengthMask.toNat
  else n.toNat

theorem frameLimit_lt (n : UInt32) : frameLimit n < 2 ^ 30 := by
  have hmask : lengthMask.toNat = 2 ^ 30 - 1 := rfl
  rw [frameLimit]
  split_ifs with hzero hlarge
  · decide
  · omega
  · rw [UInt32.lt_iff_toNat_lt] at hlarge
    omega

theorem lengthOf_eq (w : UInt32) : lengthOf w = w.toNat % 2 ^ 30 := by
  rw [lengthOf, UInt32.toNat_and]
  exact Nat.and_two_pow_sub_one_eq_mod w.toNat 30

theorem lengthOf_lt (w : UInt32) : lengthOf w < 2 ^ 30 := by
  rw [lengthOf_eq]
  exact Nat.mod_lt _ (by decide)

theorem and_flag_ne_zero_iff (w flag : UInt32) (i : ℕ) (h : flag.toNat = 2 ^ i) :
    w &&& flag ≠ 0 ↔ w.toNat / 2 ^ i % 2 = 1 := by
  have hand : (w &&& flag).toNat = (w.toNat.testBit i).toNat * 2 ^ i := by
    rw [UInt32.toNat_and, h, Nat.and_two_pow]
  have hbit : w.toNat.testBit i = true ↔ w.toNat / 2 ^ i % 2 = 1 := by
    rw [Nat.testBit_eq_decide_div_mod_eq, decide_eq_true_iff]
  rw [Ne, ← UInt32.toNat_inj, hand, ← hbit]
  cases w.toNat.testBit i <;> simp

theorem isSession_iff (w : UInt32) : isSession w = true ↔ 2 ^ 31 ≤ w.toNat := by
  have hw := w.toNat_lt
  rw [isSession, decide_eq_true_iff, and_flag_ne_zero_iff w sessionFlag 31 rfl]
  omega

theorem isOneWay_iff (w : UInt32) : isOneWay w = true ↔ w.toNat / 2 ^ 30 % 2 = 1 := by
  rw [isOneWay, decide_eq_true_iff, and_flag_ne_zero_iff w oneWayFlag 30 rfl]

def mkHeader (session oneWay : Bool) (length : ℕ) : UInt32 :=
  .ofNat (length + (if session then 2 ^ 31 else 0) + if oneWay then 2 ^ 30 else 0)

section mkHeader

variable {session oneWay : Bool} {n : ℕ}

theorem toNat_mkHeader (h : n < 2 ^ 30) : (mkHeader session oneWay n).toNat =
    n + (if session then 2 ^ 31 else 0) + if oneWay then 2 ^ 30 else 0 := by
  rw [mkHeader, UInt32.toNat_ofNat']
  cases session <;> cases oneWay <;>
    simp only [false_eq_true, ↓reduceIte] <;> omega

theorem lengthOf_mkHeader (h : n < 2 ^ 30) : lengthOf (mkHeader session oneWay n) = n := by
  rw [lengthOf_eq, toNat_mkHeader h]
  cases session <;> cases oneWay <;>
    simp only [Bool.false_eq_true, ↓reduceIte] <;> omega

theorem isSession_mkHeader (h : n < 2 ^ 30) : isSession (mkHeader session oneWay n) = session := by
  rw [Bool.eq_iff_iff, isSession_iff, toNat_mkHeader h]
  cases session <;> cases oneWay <;>
    simp only [Bool.false_eq_true, ↓reduceIte, iff_true, iff_false] <;> omega

theorem isOneWay_mkHeader (h : n < 2 ^ 30) : isOneWay (mkHeader session oneWay n) = oneWay := by
  rw [Bool.eq_iff_iff, isOneWay_iff, toNat_mkHeader h]
  cases session <;> cases oneWay <;>
    simp only [false_eq_true, ↓reduceIte, iff_true, iff_false] <;> omega

end mkHeader

def headed (header : UInt32) (frame : Bytes) : List Bytes :=
  if frame.length ≤ 65536 then [word header ++ frame] else [word header, frame]

theorem flatten_headed (header : UInt32) (frame : Bytes) :
    (headed header frame).flatten = word header ++ frame := by
  rw [headed]
  split_ifs <;> simp

def answerSize (w : UInt32) : ℕ :=
  if w = proofRefusalHeader then 2 else if isOneWay w then 0 else lengthOf w

abbrev Request := Frame lengthOf

abbrev Answer := Frame answerSize

theorem answerSize_of_not_isOneWay {w : UInt32} (h : isOneWay w = false) :
    answerSize w = lengthOf w := by
  rw [answerSize, if_neg, if_neg (by simp [h])]
  rintro rfl
  exact absurd h (by decide)

theorem answerSize_mkHeader {session : Bool} {n : ℕ} (h : n < 2 ^ 30) :
    answerSize (mkHeader session false n) = n := by
  rw [answerSize_of_not_isOneWay (isOneWay_mkHeader h), lengthOf_mkHeader h]

def acceptAnswer : Answer := ⟨sessionAccept, [], by decide⟩

def closingAnswer : Answer := ⟨sessionClosing, [], by decide⟩

def replyAnswer (session : Bool) (body : Bytes) (h : body.length < 2 ^ 30) : Answer :=
  ⟨mkHeader session false body.length, body, (answerSize_mkHeader h).symm⟩

theorem mkHeader_ne_closing {session : Bool} {n : ℕ} (h : n < 2 ^ 30) :
    mkHeader session false n ≠ sessionClosing := by
  intro heq
  have hbit : isOneWay (mkHeader session false n) = false := isOneWay_mkHeader h
  rw [heq] at hbit
  exact absurd hbit (by decide)

structure Exchange where
  request : Request
  answer : Answer
  session : isSession answer.head = true
  one_way : isOneWay answer.head = false

def requests (exs : List Exchange) : Bytes := flat (exs.map Exchange.request)

def answers (exs : List Exchange) : Bytes := flat (acceptAnswer :: exs.map Exchange.answer)

theorem requests_append_singleton (exs : List Exchange) (e : Exchange) :
    requests (exs ++ [e]) = requests exs ++ e.request.bytes := by
  simp [requests]

theorem answers_append_singleton (exs : List Exchange) (e : Exchange) :
    answers (exs ++ [e]) = answers exs ++ e.answer.bytes := by
  simp [answers]

theorem Exchange.answer_ne_closing (e : Exchange) : e.answer.head ≠ sessionClosing := by
  intro h
  have hbit := e.one_way
  rw [h] at hbit
  exact absurd hbit (by decide)

end Listen
