import AbstractionIdentity.Stream.Sink
import Mathlib.Data.List.Infix

/-!
# A writer with a state of its own

A device answers a buffer with any count and error. The offers of the loop follow one another in
the string (`Contiguous`), so a device that tells the truth has accepted its first bytes, as many
as were counted (`driveParts_truthful`).
-/

namespace Stream

open Text List Option

variable {σ ε : Type*}

abbrev Device (σ ε : Type*) := σ → Bytes → (ℤ × Option ε) × σ

structure Offer (ε : Type*) where
  buf : Bytes
  count : ℤ
  err : Option ε
  deriving DecidableEq

/-- The state of the device, the bytes counted, the error that ended the loop, and the offers in
their order. -/
structure Driven (σ ε : Type*) where
  state : σ
  written : ℕ
  err : Option ε
  offers : List (Offer ε)

def driveLoop (d : Device σ ε) (short : ε) : ℕ → Bytes → Driven σ ε → Driven σ ε
  | 0, _, s => s
  | fuel + 1, part, s =>
    if part = [] then s
    else
      let n := (d s.state part).1.1
      let err := (d s.state part).1.2
      let state := (d s.state part).2
      let offers := s.offers ++ [⟨part, n, err⟩]
      if n < 0 ∨ (part.length : ℤ) < n then ⟨state, s.written, some short, offers⟩
      else if err.isSome then ⟨state, s.written + n.toNat, err, offers⟩
      else if n ≤ 0 then ⟨state, s.written + n.toNat, some short, offers⟩
      else driveLoop d short fuel (part.drop n.toNat) ⟨state, s.written + n.toNat, none, offers⟩

def driveParts (d : Device σ ε) (short : ε) : List Bytes → Driven σ ε → Driven σ ε
  | [], s => s
  | part :: parts, s =>
    let s := driveLoop d short part.length part s
    if s.err.isSome then s else driveParts d short parts s

/-! ## Offers -/

namespace Offer

def InRange (o : Offer ε) : Prop := 0 ≤ o.count ∧ o.count ≤ o.buf.length

instance (o : Offer ε) : Decidable o.InRange := inferInstanceAs (Decidable (_ ∧ _))

structure Took (o : Offer ε) : Prop where
  pos : 0 < o.count
  le : o.count ≤ o.buf.length
  err : o.err = none

def taken (o : Offer ε) : ℕ := if o.InRange then o.count.toNat else 0

end Offer

def takenAll (offers : List (Offer ε)) : ℕ := (offers.map Offer.taken).sum

def Contiguous (total : Bytes) : ℕ → List (Offer ε) → Prop
  | _, [] => True
  | at', o :: rest =>
    o.buf ≠ [] ∧ o.buf <+: total.drop at' ∧ Contiguous total (at' + o.taken) rest

@[simp] theorem takenAll_concat (offers : List (Offer ε)) (o : Offer ε) :
    takenAll (offers ++ [o]) = takenAll offers + o.taken := by
  simp [takenAll]

theorem contiguous_concat {total : Bytes} {at' : ℕ} {offers : List (Offer ε)} {o : Offer ε} :
    Contiguous total at' (offers ++ [o]) ↔ Contiguous total at' offers ∧ o.buf ≠ [] ∧
      o.buf <+: total.drop (at' + takenAll offers) := by
  induction offers generalizing at' with
  | nil => simp [Contiguous, takenAll]
  | cons a rest ih =>
    rw [cons_append, Contiguous, Contiguous, ih, takenAll, takenAll, map_cons,
      sum_cons, Nat.add_assoc]
    tauto

/-! ## The account of a loop -/

structure Account (total : Bytes) (s : Driven σ ε) : Prop where
  contiguous : Contiguous total 0 s.offers
  written : s.written = takenAll s.offers
  earlier : ∀ o ∈ s.offers.dropLast, o.Took

structure Running (total : Bytes) (s : Driven σ ε) : Prop extends Account total s where
  err : s.err = none
  took : ∀ o ∈ s.offers, o.Took

structure Stopped (total : Bytes) (s : Driven σ ε) : Prop extends Account total s where
  err : s.err ≠ none
  bound : s.written ≤ total.length
  reason : s.written < total.length ∨ ∃ o ∈ s.offers, o.err ≠ none

variable {d : Device σ ε} {short : ε} {total start : Bytes}

theorem Running.offer {s : Driven σ ε} {part : Bytes} (h : Running total s) (hne : part ≠ [])
    (hpart : part <+: total.drop s.written) (n : ℤ) (err err' : Option ε) (state : σ) {written : ℕ}
    (hwritten : written = s.written + Offer.taken ⟨part, n, err⟩) :
    Account total ⟨state, written, err', s.offers ++ [⟨part, n, err⟩]⟩ where
  contiguous := contiguous_concat.2 ⟨h.contiguous, hne, by rwa [Nat.zero_add, ← h.written]⟩
  written := by rw [takenAll_concat, ← h.written, hwritten]
  earlier := by
    rw [dropLast_concat]
    exact h.took

theorem taken_of_range {part : Bytes} {n : ℤ} {err : Option ε}
    (h : ¬ (n < 0 ∨ (part.length : ℤ) < n)) : Offer.taken ⟨part, n, err⟩ = n.toNat := by
  rw [Offer.taken, if_pos]
  exact ⟨by dsimp only; omega, by dsimp only; omega⟩

theorem taken_of_not_range {part : Bytes} {n : ℤ} {err : Option ε}
    (h : n < 0 ∨ (part.length : ℤ) < n) : Offer.taken ⟨part, n, err⟩ = 0 := by
  rw [Offer.taken, if_neg]
  rintro ⟨hlow, hhigh⟩
  dsimp only at hlow hhigh
  omega

theorem driveLoop_account {fuel : ℕ} {part : Bytes} {s : Driven σ ε} (hfuel : part.length ≤ fuel)
    (h : Running total s) (hpart : part <+: total.drop s.written) :
    (Running total (driveLoop d short fuel part s) ∧
      (driveLoop d short fuel part s).written = s.written + part.length) ∨
      Stopped total (driveLoop d short fuel part s) := by
  induction fuel generalizing part s with
  | zero =>
    obtain rfl : part = [] := eq_nil_of_length_eq_zero (Nat.le_zero.1 hfuel)
    exact .inl ⟨h, rfl⟩
  | succ fuel ih =>
    rw [driveLoop]
    by_cases hnil : part = []
    · rw [if_pos hnil, hnil]
      exact .inl ⟨h, rfl⟩
    have hlen : 0 < part.length := length_pos_iff.2 hnil
    have hleft : s.written + part.length ≤ total.length := by
      have hle := hpart.length_le
      rw [length_drop] at hle
      omega
    rw [if_neg hnil]
    dsimp only
    generalize (d s.state part).1.1 = n
    generalize (d s.state part).1.2 = err
    generalize (d s.state part).2 = state
    by_cases hrange : n < 0 ∨ (part.length : ℤ) < n
    · rw [if_pos hrange]
      have hless : s.written < total.length := by omega
      exact .inr ⟨h.offer hnil hpart n err _ state (by rw [taken_of_not_range hrange]; rfl),
        some_ne_none short, hless.le, .inl hless⟩
    have haccount : ∀ err', Account total
        ⟨state, s.written + n.toNat, err', s.offers ++ [⟨part, n, err⟩]⟩ := fun err' =>
      h.offer hnil hpart n err err' state (by rw [taken_of_range hrange])
    have hbound : s.written + n.toNat ≤ total.length := by omega
    rw [if_neg hrange]
    cases err with
    | some e =>
      refine .inr ⟨haccount _, some_ne_none e, hbound, .inr ?_⟩
      exact ⟨_, mem_append_right _ (mem_singleton.2 rfl), some_ne_none e⟩
    | none =>
      simp only [isSome_none, Bool.false_eq_true, if_false]
      by_cases hzero : n ≤ 0
      · have hless : s.written + n.toNat < total.length := by omega
        rw [if_pos hzero]
        exact .inr ⟨haccount _, some_ne_none short, hbound, .inl hless⟩
      · rw [if_neg hzero]
        have htook : ∀ o ∈ s.offers ++ [⟨part, n, none⟩], Offer.Took o := by
          intro o ho
          rcases mem_append.1 ho with ho | ho
          · exact h.took o ho
          · rw [mem_singleton.1 ho]
            exact ⟨by dsimp only; omega, by dsimp only; omega, rfl⟩
        have hrest : (part.drop n.toNat).length = part.length - n.toNat := length_drop
        have hnext : part.drop n.toNat <+: total.drop (s.written + n.toNat) := by
          rw [← drop_drop]
          exact List.IsPrefix.drop hpart n.toNat
        rcases ih (by omega) ⟨haccount none, rfl, htook⟩ hnext with ⟨hrun, hwritten⟩ | hstop
        · refine .inl ⟨hrun, ?_⟩
          rw [hwritten, hrest]
          dsimp only
          omega
        · exact .inr hstop

theorem prefix_drop_of_written {part rest : Bytes} {n m : ℕ} (h : part ++ rest <+: total.drop n)
    (hm : m = n + part.length) : rest <+: total.drop m := by
  have hdrop := List.IsPrefix.drop h part.length
  rwa [drop_left, drop_drop, ← hm] at hdrop

theorem driveParts_account {parts : List Bytes} {s : Driven σ ε} (h : Running total s)
    (hparts : parts.flatten <+: total.drop s.written) :
    (Running total (driveParts d short parts s) ∧
      (driveParts d short parts s).written = s.written + parts.flatten.length) ∨
      Stopped total (driveParts d short parts s) := by
  induction parts generalizing s with
  | nil => exact .inl ⟨h, rfl⟩
  | cons part parts ih =>
    rw [flatten_cons] at hparts
    rw [driveParts]
    rcases @driveLoop_account σ ε d short total part.length part s le_rfl h
      ((prefix_append _ _).trans hparts) with ⟨hrun, hwritten⟩ | hstop
    · have hnext := prefix_drop_of_written hparts hwritten
      rw [hrun.err, if_neg (by simp)]
      rcases ih hrun hnext with ⟨hrun', hwritten'⟩ | hstop'
      · refine .inl ⟨hrun', ?_⟩
        rw [hwritten', hwritten, flatten_cons, length_append, Nat.add_assoc]
      · exact .inr hstop'
    · rw [if_pos (isSome_iff_ne_none.2 hstop.err)]
      exact .inr hstop

/-! ## Devices that tell the truth -/

def Device.Truthful (d : Device σ ε) (accepted : σ → Bytes) : Prop :=
  ∀ s part, 0 ≤ (d s part).1.1 ∧ (d s part).1.1 ≤ part.length ∧
    accepted (d s part).2 = accepted s ++ part.take (d s part).1.1.toNat

theorem driveLoop_truthful {accepted : σ → Bytes} (hd : d.Truthful accepted) {fuel : ℕ}
    {part : Bytes} {s : Driven σ ε} :
    ∃ k ≤ part.length, (driveLoop d short fuel part s).written = s.written + k ∧
      accepted (driveLoop d short fuel part s).state = accepted s.state ++ part.take k := by
  induction fuel generalizing part s with
  | zero => exact ⟨0, Nat.zero_le _, rfl, (append_nil _).symm⟩
  | succ fuel ih =>
    rw [driveLoop]
    by_cases hnil : part = []
    · rw [if_pos hnil]
      exact ⟨0, Nat.zero_le _, rfl, (append_nil _).symm⟩
    obtain ⟨hlow, hhigh, haccepted⟩ := hd s.state part
    rw [if_neg hnil]
    dsimp only
    generalize (d s.state part).1.1 = n at hlow hhigh haccepted ⊢
    generalize (d s.state part).1.2 = err
    generalize (d s.state part).2 = state at haccepted ⊢
    have hrange : ¬ (n < 0 ∨ (part.length : ℤ) < n) := by omega
    have hle : n.toNat ≤ part.length := by omega
    rw [if_neg hrange]
    by_cases herr : err.isSome
    · rw [if_pos herr]
      exact ⟨n.toNat, hle, rfl, haccepted⟩
    rw [if_neg herr]
    split_ifs with hzero
    · exact ⟨n.toNat, hle, rfl, haccepted⟩
    obtain ⟨k, hk, hwritten, hrest⟩ := @ih (part.drop n.toNat)
      ⟨state, s.written + n.toNat, none, s.offers ++ [⟨part, n, err⟩]⟩
    rw [length_drop] at hk
    refine ⟨n.toNat + k, by omega, ?_, ?_⟩
    · rw [hwritten, Nat.add_assoc]
    · rw [hrest, take_add, ← append_assoc]
      exact congrArg (· ++ (part.drop n.toNat).take k) haccepted

theorem driveParts_truthful {accepted : σ → Bytes} (hd : d.Truthful accepted)
    {parts : List Bytes} {s : Driven σ ε} (h : Running total s)
    (hparts : parts.flatten <+: total.drop s.written)
    (hs : accepted s.state = start ++ total.take s.written) :
    accepted (driveParts d short parts s).state =
      start ++ total.take (driveParts d short parts s).written := by
  induction parts generalizing s with
  | nil => exact hs
  | cons part parts ih =>
    rw [flatten_cons] at hparts
    have hpart : part <+: total.drop s.written := (prefix_append _ _).trans hparts
    have haccepted : accepted (driveLoop d short part.length part s).state =
        start ++ total.take (driveLoop d short part.length part s).written := by
      obtain ⟨k, hk, hwritten, hstate⟩ := @driveLoop_truthful σ ε d short accepted hd part.length
        part s
      have htake : part.take k = (total.drop s.written).take k := by
        obtain ⟨rest, hrest⟩ := hpart
        rw [← hrest, take_append_of_le_length hk]
      rw [hstate, hs, hwritten, take_add, htake, append_assoc]
    rw [driveParts]
    rcases @driveLoop_account σ ε d short total part.length part s le_rfl h hpart with
      ⟨hrun, hwritten⟩ | hstop
    · have hnext := prefix_drop_of_written hparts hwritten
      rw [hrun.err, if_neg (by simp)]
      exact ih hrun hnext haccepted
    · rw [if_pos (isSome_iff_ne_none.2 hstop.err)]
      exact haccepted

/-! ## Writers without a state -/

/-- A writer as a device whose state is what it has taken. -/
def Writer.device (w : Writer ε) : Device Bytes ε := fun out part =>
  (w out part, if (w out part).1 < 0 ∨ (part.length : ℤ) < (w out part).1 then out
    else out ++ part.take (w out part).1.toNat)

def Driven.sunk (s : Driven Bytes ε) : Sunk ε := ⟨s.state, s.written, s.err⟩

theorem sunk_driveLoop {w : Writer ε} {fuel : ℕ} {part : Bytes} {s : Driven Bytes ε} :
    (driveLoop (Writer.device w) short fuel part s).sunk = writeLoop w short fuel part s.sunk := by
  induction fuel generalizing part s with
  | zero => rfl
  | succ fuel ih =>
    rw [driveLoop, writeLoop]
    by_cases hnil : part = []
    · rw [if_pos hnil, if_pos hnil]
    rw [if_neg hnil, if_neg hnil]
    by_cases hrange : (w s.state part).1 < 0 ∨ (part.length : ℤ) < (w s.state part).1
    · simp only [Writer.device, Driven.sunk, hrange, ↓reduceIte]
    by_cases herr : (w s.state part).2.isSome
    · simp only [Writer.device, Driven.sunk, hrange, herr, ↓reduceIte]
    by_cases hzero : (w s.state part).1 ≤ 0
    · simp only [Writer.device, Driven.sunk, hrange, herr, hzero, ↓reduceIte, Bool.false_eq_true]
    · have hnone : (w s.state part).2 = none := not_isSome_iff_eq_none.1 herr
      have hnext := @ih (part.drop (w s.state part).1.toNat)
        ⟨s.state ++ part.take (w s.state part).1.toNat, s.written + (w s.state part).1.toNat,
          none, s.offers ++ [⟨part, (w s.state part).1, none⟩]⟩
      simp only [Writer.device, Driven.sunk, hrange, hzero, hnone, isSome_none,
        Bool.false_eq_true, ↓reduceIte] at hnext ⊢
      exact hnext

theorem sunk_driveParts {w : Writer ε} {parts : List Bytes} {s : Driven Bytes ε} :
    (driveParts (Writer.device w) short parts s).sunk = writeParts w short parts s.sunk := by
  induction parts generalizing s with
  | nil => rfl
  | cons part parts ih =>
    have hloop : writeLoop w short part.length part s.sunk =
        (driveLoop (Writer.device w) short part.length part s).sunk := sunk_driveLoop.symm
    rw [driveParts, writeParts, hloop]
    change (if (driveLoop (Writer.device w) short part.length part s).err.isSome then _
      else _ : Driven Bytes ε).sunk = if (driveLoop (Writer.device w) short part.length part
        s).err.isSome then _ else _
    by_cases herr : (driveLoop (Writer.device w) short part.length part s).err.isSome
    · rw [if_pos herr, if_pos herr]
    · rw [if_neg herr, if_neg herr]
      exact ih

end Stream
