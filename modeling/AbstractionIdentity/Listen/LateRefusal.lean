import AbstractionIdentity.Listen.SentCount

/-!
# A refusal behind a failed write

A server may refuse and close while the client is still writing; the refusal then waits in what the
server has sent. Go reads a word at a time, C++ what there is, and gives up at the first byte that
does not fit. Its variables are functions of the bytes it has read (`expectedOf`, `acceptedOf`),
so both find what `lateRefusal` finds in the whole string.
-/

namespace Listen

open Text Stream List

def isSessionAnswer (w : UInt32) : Bool :=
  w = sessionAccept || w = sessionDecline || w = sessionUnsupported

section Go

variable (chunk : ℕ → Bytes → ℕ)

/-- The end of `refusalAfterWriteError`, with the header it has read: what it returns and
what it leaves of the stream. -/
def refusalAfterHeader (writeErr : ClientErr) (header : UInt32) (inn : Bytes) :
    ClientErr × Bytes :=
  if header ≠ proofRefusalHeader then (writeErr, inn)
  else match readProofRefusal chunk inn with
    | .refused attr required => (.refused attr required, (readFull chunk 2 inn).2)
    | _ => (writeErr, (readFull chunk 2 inn).2)

def goRefusalAfterWriteError (live : Bool) (writeErr : ClientErr) (opening : Bool)
    (inn : Bytes) : ClientErr × Bytes :=
  if !live || (writeSignalsClosedPeer writeErr).isNone then (writeErr, inn)
  else
    let (header, rest) := readFull chunk 4 inn
    if header.length ≠ 4 then (writeErr, rest)
    else if opening && isSessionAnswer (unword header) then
      let (header, rest) := readFull chunk 4 rest
      if header.length ≠ 4 then (writeErr, rest)
      else refusalAfterHeader chunk writeErr (unword header) rest
    else refusalAfterHeader chunk writeErr (unword header) rest

end Go

section Cpp

/-- The variables of the loop: the bytes read so far, how many it wants, and whether an
answer to the opening came first. -/
structure RefusalProbe where
  control : Bytes
  expected : ℕ
  accepted : Bool
  deriving DecidableEq

def RefusalProbe.offset (p : RefusalProbe) : ℕ := if p.accepted then 4 else 0

def RefusalProbe.inspect (opening : Bool) (p : RefusalProbe) : Option RefusalProbe :=
  if opening ∧ 4 ≤ p.control.length ∧ p.expected = 4 ∧
      isSessionAnswer (unword p.control) = true then
    some { p with expected := 10, accepted := true }
  else if opening ∧ p.accepted = false ∧ p.control.length < 4 then some p
  else if ((p.control.drop p.offset).take 3).any (· ≠ 255) then none
  else if p.offset + 4 ≤ p.control.length ∧ p.control.getD (p.offset + 3) 0 ≠ 254 then none
  else if opening ∧ p.accepted = false ∧ p.control.length = 4 ∧
      unword p.control = proofRefusalHeader then
    some { p with expected := 6 }
  else some p

/-- The loop, of at most `fuel` reads: the bytes it wanted, unless it gave up, and what it
leaves of the stream. -/
def RefusalProbe.loop (chunk : ℕ → Bytes → ℕ) (opening : Bool) :
    ℕ → RefusalProbe → Bytes → Option RefusalProbe × Bytes
  | 0, p, inn => (some p, inn)
  | fuel + 1, p, inn =>
    if p.expected ≤ p.control.length then (some p, inn)
    else match readSome chunk (p.expected - p.control.length) inn with
      | none => (none, inn)
      | some (bs, rest) =>
        match RefusalProbe.inspect opening { p with control := p.control ++ bs } with
        | none => (none, rest)
        | some p => p.loop chunk opening fuel rest

def RefusalProbe.refused (p : RefusalProbe) : Bool :=
  let marker := p.control.drop p.offset
  !(unword marker ≠ proofRefusalHeader || 5 < marker.getD 4 0 || 8 < marker.getD 5 0 ||
    decide (marker.getD 4 0 = 0) != decide (marker.getD 5 0 = 0))

/-- `refusal_after_write_error` of C++, for a connection without a server expectation. It
reads ten bytes at most, and every read brings one. -/
def cppRefusalAfterWriteError (chunk : ℕ → Bytes → ℕ) (writeError : IpcStatus)
    (opening : Bool) (inn : Bytes) : IpcStatus × Bytes :=
  if writeError ≠ .disconnected ∧ writeError ≠ .ioError then (writeError, inn)
  else match RefusalProbe.loop chunk opening 10 ⟨[], if opening then 4 else 6, false⟩ inn with
    | (none, rest) => (writeError, rest)
    | (some p, rest) => (if p.refused then .proofUnavailable else writeError, rest)

end Cpp

def lateOffset (opening : Bool) (inn : Bytes) : ℕ :=
  if opening = true ∧ 4 ≤ inn.length ∧ isSessionAnswer (unword inn) = true then 4 else 0

def refusalTokens (s : Bytes) : Option (UInt8 × UInt8) :=
  match s.drop 4 with
  | attr :: required :: _ =>
    if unword s = proofRefusalHeader ∧ validTokens [attr, required] = true then
      some (attr, required)
    else none
  | _ => none

def lateRefusal (opening : Bool) (inn : Bytes) : Option (UInt8 × UInt8) :=
  refusalTokens (inn.drop (lateOffset opening inn))

def lateError (e : ClientErr) : Option (UInt8 × UInt8) → ClientErr
  | some (attr, required) => .refused attr required
  | none => e

section Spec

variable {chunk : ℕ → Bytes → ℕ} {opening : Bool} {inn : Bytes}

theorem exists_cons_cons_of_le {s : Bytes} (h : 2 ≤ s.length) : ∃ a b t, s = a :: b :: t := by
  cases s with
  | nil => cases h
  | cons a s =>
    cases s with
    | nil => exact absurd h (by simp)
    | cons b t => exact ⟨a, b, t, rfl⟩

theorem refusalTokens_of_lt {s : Bytes} (h : s.length < 6) : refusalTokens s = none := by
  rw [refusalTokens]
  split
  next attr required rest hs =>
    have hlen := congrArg List.length hs
    simp only [length_drop, length_cons] at hlen
    omega
  · rfl

theorem refusalTokens_of_ne {s : Bytes} (h : unword s ≠ proofRefusalHeader) :
    refusalTokens s = none := by
  rw [refusalTokens]
  split
  · rw [if_neg fun hs => h hs.1]
  · rfl

theorem refusalAfterHeader_eq (e : ClientErr) (s : Bytes) :
    ∃ n ≤ 6, (refusalAfterHeader chunk e (unword s) (s.drop 4)).2 = s.drop n ∧
      (refusalAfterHeader chunk e (unword s) (s.drop 4)).1 = lateError e (refusalTokens s) := by
  rw [refusalAfterHeader]
  by_cases hw : unword s = proofRefusalHeader
  · rw [if_neg (not_not_intro hw)]
    have hrest : (readFull chunk 2 (s.drop 4)).2 = s.drop 6 := by
      rw [readFull_eq, drop_drop]
    refine ⟨6, le_rfl, ?_, ?_⟩
    · rw [← hrest]
      split <;> rfl
    · rw [readProofRefusal]
      rcases Nat.lt_or_ge (s.drop 4).length 2 with hshort | hlong
      · rw [readExact_of_lt chunk _ hshort, refusalTokens_of_lt, endError]
        · split_ifs <;> rfl
        · rw [length_drop] at hshort
          omega
      · rw [readExact_of_le chunk _ hlong]
        obtain ⟨attr, required, rest, hs⟩ := exists_cons_cons_of_le hlong
        have hbad := validTokens_eq_false_iff attr required
        simp only [refusalTokens, hs, hw, true_and, take_succ_cons, take_zero, refusalOf]
        cases hvalid : validTokens [attr, required] with
        | false =>
          rw [if_pos (hbad.1 hvalid), if_neg (by decide)]
          rfl
        | true =>
          have hgood := fun hb => Bool.eq_false_iff.1 (hbad.2 hb) hvalid
          rw [if_neg hgood, if_pos rfl]
          rfl
  · rw [if_pos hw, refusalTokens_of_ne hw]
    exact ⟨4, by omega, rfl, rfl⟩

theorem goRefusalAfterWriteError_eq {e : ClientErr} (he : (writeSignalsClosedPeer e).isSome)
    (opening : Bool) (inn : Bytes) :
    (∃ n ≤ lateOffset opening inn + 6,
      (goRefusalAfterWriteError chunk true e opening inn).2 = inn.drop n) ∧
    (goRefusalAfterWriteError chunk true e opening inn).1 =
      lateError e (lateRefusal opening inn) := by
  have hclosed : ¬ (!true || (writeSignalsClosedPeer e).isNone) = true := by
    cases h : writeSignalsClosedPeer e with
    | none => simp [h] at he
    | some _ => simp
  rw [goRefusalAfterWriteError, if_neg hclosed, readFull_eq]
  rcases Nat.lt_or_ge inn.length 4 with hshort | hlong
  · have hlen : (inn.take 4).length ≠ 4 := by
      rw [length_take]
      omega
    have hnone : lateRefusal opening inn = none := by
      rw [lateRefusal, refusalTokens_of_lt]
      rw [length_drop]
      omega
    simp only [if_pos hlen, hnone]
    exact ⟨⟨4, by omega, rfl⟩, rfl⟩
  · have hlen : ¬ (inn.take 4).length ≠ 4 := by
      rw [length_take]
      omega
    simp only [if_neg hlen, unword_take]
    by_cases hanswer : opening = true ∧ isSessionAnswer (unword inn) = true
    · have hoffset : lateOffset opening inn = 4 := if_pos ⟨hanswer.1, hlong, hanswer.2⟩
      rw [if_pos (by simp [hanswer]), lateRefusal, hoffset, readFull_eq]
      rcases Nat.lt_or_ge (inn.drop 4).length 4 with hshort | hmore
      · have hlen : ((inn.drop 4).take 4).length ≠ 4 := by
          rw [length_take]
          omega
        rw [refusalTokens_of_lt (by omega)]
        simp only [if_pos hlen, drop_drop]
        exact ⟨⟨8, by omega, rfl⟩, rfl⟩
      · have hlen : ¬ ((inn.drop 4).take 4).length ≠ 4 := by
          rw [length_take]
          omega
        simp only [if_neg hlen, unword_take]
        obtain ⟨n, hn, hrest, hresult⟩ := @refusalAfterHeader_eq chunk e (inn.drop 4)
        exact ⟨⟨4 + n, by omega, by rw [hrest, drop_drop]⟩, hresult⟩
    · have hoffset : lateOffset opening inn = 0 := if_neg fun h => hanswer ⟨h.1, h.2.2⟩
      rw [if_neg (by simpa using hanswer), lateRefusal, hoffset, drop_zero]
      obtain ⟨n, hn, hrest, hresult⟩ := @refusalAfterHeader_eq chunk e inn
      exact ⟨⟨n, by omega, hrest⟩, hresult⟩

def expectedOf (opening : Bool) (s : Bytes) : ℕ :=
  if opening = false then 6
  else if s.length < 4 then 4
  else if isSessionAnswer (unword s) then 10
  else 6

def acceptedOf (opening : Bool) (s : Bytes) : Bool :=
  opening && decide (4 ≤ s.length) && isSessionAnswer (unword s)

def RefusalProbe.of (opening : Bool) (s : Bytes) : RefusalProbe :=
  ⟨s, expectedOf opening s, acceptedOf opening s⟩

open RefusalProbe

def Mismatch (u : Bytes) : Prop := (u.take 3).any (· ≠ 255) = true ∨ 4 ≤ u.length ∧ u.getD 3 0 ≠ 254

theorem unword_ne_of_mismatch {u rest : Bytes} (h : Mismatch u) (hlen : 4 ≤ (u ++ rest).length) :
    unword (u ++ rest) ≠ proofRefusalHeader := by
  intro hw
  obtain ⟨t, ht⟩ := (word_prefix_iff _ _).2 ⟨hlen, hw⟩
  have hword : word proofRefusalHeader = [255, 255, 255, 254] := by decide
  rw [hword] at ht
  rcases h with hany | ⟨hfour, hne⟩
  · have hall : ∀ b ∈ u.take 3, b = 255 := by
      intro b hb
      have hmem : b ∈ (u ++ rest).take 3 := by
        rw [take_append]
        exact mem_append_left _ hb
      rw [← ht] at hmem
      simpa using hmem
    obtain ⟨b, hb, hne⟩ := any_eq_true.1 hany
    exact absurd (hall b hb) (by simpa using hne)
  · apply hne
    have hget : (u ++ rest).getD 3 0 = 254 := by
      rw [← ht]
      rfl
    rwa [getD_append _ _ _ _ (by omega)] at hget

theorem unword_of_not_mismatch {u : Bytes} (h : ¬ Mismatch u) (hlen : u.length = 4) :
    unword u = proofRefusalHeader := by
  match u, hlen with
  | [a, b, c, d], _ =>
    simp only [Mismatch, take_succ_cons, take_zero, any_cons, any_nil,
      Bool.or_false, Bool.or_eq_true, decide_eq_true_eq, length_cons, length_nil,
      getD_cons_succ, getD_cons_zero, not_or, not_not, not_and, ne_eq] at h
    obtain ⟨⟨rfl, rfl, rfl⟩, hd⟩ := h
    obtain rfl : d = 254 := hd (by decide)
    decide

theorem isSessionAnswer_refusal : isSessionAnswer proofRefusalHeader = false := by decide

theorem unword_append {s : Bytes} (h : 4 ≤ s.length) (rest : Bytes) :
    unword (s ++ rest) = unword s := by
  rw [← unword_take, take_append_of_le_length h, unword_take]

theorem lateOffset_append {s : Bytes} (h : opening = true → 4 ≤ s.length) (rest : Bytes) :
    lateOffset opening (s ++ rest) = (of opening s).offset := by
  cases opening with
  | false => rfl
  | true =>
    have hlen : 4 ≤ (s ++ rest).length := by
      rw [length_append]
      exact Nat.le_add_right_of_le (h rfl)
    simp only [lateOffset, of, offset, acceptedOf, h rfl, hlen,
      unword_append (h rfl), decide_true, Bool.true_and, true_and]

theorem lateRefusal_of_mismatch {s : Bytes} {o : ℕ}
    (ho : ∀ rest, lateOffset opening (s ++ rest) = o) (hle : o ≤ s.length)
    (h : Mismatch (s.drop o)) (rest : Bytes) : lateRefusal opening (s ++ rest) = none := by
  rw [lateRefusal, ho, drop_append_of_le_length hle]
  rcases Nat.lt_or_ge (s.drop o ++ rest).length 4 with hshort | hlong
  · exact refusalTokens_of_lt (by omega)
  · exact refusalTokens_of_ne (unword_ne_of_mismatch h hlong)

theorem inspect_marker {p : RefusalProbe}
    (hanswer : ¬ (opening = true ∧ 4 ≤ p.control.length ∧ p.expected = 4 ∧
      isSessionAnswer (unword p.control) = true))
    (hwait : ¬ (opening = true ∧ p.accepted = false ∧ p.control.length < 4)) :
    p.inspect opening = none ∧ Mismatch (p.control.drop p.offset) ∨
      ¬ Mismatch (p.control.drop p.offset) ∧ p.inspect opening =
        if opening = true ∧ p.accepted = false ∧ p.control.length = 4 ∧
          unword p.control = proofRefusalHeader then some { p with expected := 6 } else some p := by
  have hget : (p.control.drop p.offset).getD 3 0 = p.control.getD (p.offset + 3) 0 := by
    simp only [getD_eq_getElem?_getD, List.getElem?_drop]
  have hlen : 4 ≤ (p.control.drop p.offset).length ↔ p.offset + 4 ≤ p.control.length := by
    rw [length_drop]
    omega
  rw [inspect, if_neg hanswer, if_neg hwait, Mismatch, hget, hlen]
  by_cases hany : ((p.control.drop p.offset).take 3).any (· ≠ 255) = true
  · exact .inl ⟨if_pos hany, .inl hany⟩
  · rw [if_neg hany]
    by_cases hlast : p.offset + 4 ≤ p.control.length ∧ p.control.getD (p.offset + 3) 0 ≠ 254
    · exact .inl ⟨if_pos hlast, .inr hlast⟩
    · rw [if_neg hlast]
      exact .inr ⟨not_or.2 ⟨hany, hlast⟩, rfl⟩

/-- What the loop reads next either keeps its variables those of the bytes it has, or shows
that there is no refusal. -/
theorem inspect_of {s bs : Bytes} (hbs : bs.length ≤ expectedOf opening s - s.length)
    (hs : s.length < expectedOf opening s) :
    inspect opening ⟨s ++ bs, expectedOf opening s, acceptedOf opening s⟩ =
        some (.of opening (s ++ bs)) ∨
      inspect opening ⟨s ++ bs, expectedOf opening s, acceptedOf opening s⟩ = none ∧
        ∀ rest, lateRefusal opening (s ++ bs ++ rest) = none := by
  have hlen : (s ++ bs).length = s.length + bs.length := length_append
  cases opening with
  | false =>
    rcases @inspect_marker false
        ⟨s ++ bs, expectedOf false s, acceptedOf false s⟩ (by simp) (by simp) with
      ⟨hnone, hbad⟩ | ⟨-, hsome⟩
    · exact .inr ⟨hnone, lateRefusal_of_mismatch (fun _ => rfl) (Nat.zero_le _) hbad⟩
    · refine .inl (hsome.trans ?_)
      rfl
  | true =>
    rcases Nat.lt_or_ge s.length 4 with hshort | hlong
    · have hexpected : expectedOf true s = 4 := by
        rw [expectedOf, if_neg (by decide), if_pos hshort]
      have haccepted : acceptedOf true s = false := by
        simp [acceptedOf, Nat.not_le.2 hshort]
      rw [hexpected] at hbs
      rcases Nat.lt_or_ge (s ++ bs).length 4 with hwait | hfour
      · left
        have hof : of true (s ++ bs) = ⟨s ++ bs, 4, false⟩ := by
          simp only [of, expectedOf, acceptedOf, Nat.not_le.2 hwait, hwait,
            Bool.true_eq_false, ↓reduceIte, decide_false, Bool.and_false, Bool.false_and]
        rw [inspect, if_neg fun h => Nat.not_le.2 hwait h.2.1,
          if_pos ⟨rfl, haccepted, hwait⟩, hof, hexpected, haccepted]
      · have hfour' : (s ++ bs).length = 4 := by omega
        by_cases hanswer : isSessionAnswer (unword (s ++ bs)) = true
        · left
          rw [inspect, if_pos ⟨rfl, hfour, hexpected, hanswer⟩]
          simp only [of, expectedOf, acceptedOf, hfour', hanswer, Bool.true_eq_false,
            Nat.lt_irrefl, ↓reduceIte, le_refl, decide_true, Bool.and_self]
        · have hof : of true (s ++ bs) = ⟨s ++ bs, 6, false⟩ := by
            simp only [of, expectedOf, acceptedOf, hfour', hanswer,
              Bool.true_eq_false, Bool.false_eq_true, Nat.lt_irrefl, ↓reduceIte, Bool.and_false]
          rcases @inspect_marker true
              ⟨s ++ bs, expectedOf true s, acceptedOf true s⟩
              (fun h => hanswer h.2.2.2) (fun h => Nat.not_le.2 h.2.2 hfour) with
            ⟨hnone, hbad⟩ | ⟨hfit, hsome⟩
          · refine .inr ⟨hnone, lateRefusal_of_mismatch (o := 0) (fun rest => ?_)
              (Nat.zero_le _) ?_⟩
            · rw [lateOffset_append (fun _ => hfour), hof]
              rfl
            · simpa [offset, haccepted] using hbad
          · left
            have hword : unword (s ++ bs) = proofRefusalHeader := by
              refine unword_of_not_mismatch ?_ hfour'
              simpa [offset, haccepted] using hfit
            rw [hsome, if_pos ⟨rfl, haccepted, hfour', hword⟩, hof, haccepted]
    · have hfour : 4 ≤ (s ++ bs).length := by omega
      have hof : of true (s ++ bs) =
          ⟨s ++ bs, expectedOf true s, acceptedOf true s⟩ := by
        simp only [of, expectedOf, acceptedOf, unword_append hlong,
          Nat.not_lt.2 hlong, Nat.not_lt.2 hfour, hlong, hfour]
      have hexpected : expectedOf true s ≠ 4 := by
        simp only [expectedOf, Nat.not_lt.2 hlong, Bool.true_eq_false, ↓reduceIte]
        split_ifs <;> decide
      rcases @inspect_marker true
          ⟨s ++ bs, expectedOf true s, acceptedOf true s⟩
          (fun h => hexpected h.2.2.1) (fun h => Nat.not_le.2 h.2.2 hfour) with
        ⟨hnone, hbad⟩ | ⟨-, hsome⟩
      · refine .inr ⟨hnone, lateRefusal_of_mismatch
          (fun rest => lateOffset_append (fun _ => hfour) rest) ?_ ?_⟩
        · refine le_trans ?_ hfour
          rw [offset]
          split_ifs <;> omega
        · rwa [hof]
      · left
        rw [hsome, hof]
        split_ifs with hrefusal
        · have hnot : isSessionAnswer (unword s) = false := by
            rw [← unword_append hlong bs, hrefusal.2.2.2]
            exact isSessionAnswer_refusal
          simp only [expectedOf, Nat.not_lt.2 hlong, hnot, Bool.true_eq_false,
            Bool.false_eq_true, ↓reduceIte]
        · rfl

theorem offset_of {s : Bytes} (hs : s.length = expectedOf opening s) :
    (opening = true → 4 ≤ s.length) ∧ s.length = (of opening s).offset + 6 := by
  cases opening with
  | false => exact ⟨by simp, hs⟩
  | true =>
    rcases Nat.lt_or_ge s.length 4 with hshort | hlong
    · rw [expectedOf, if_neg (by decide), if_pos hshort] at hs
      omega
    · refine ⟨fun _ => hlong, ?_⟩
      rw [expectedOf, if_neg (by decide), if_neg (Nat.not_lt.2 hlong)] at hs
      simp only [offset, of, acceptedOf, hlong, decide_true, Bool.true_and]
      split_ifs at hs ⊢ <;> exact hs

theorem refused_of {s : Bytes} (hs : s.length = expectedOf opening s) (rest : Bytes) :
    (of opening s).refused = (lateRefusal opening (s ++ rest)).isSome := by
  obtain ⟨hfour, hlen⟩ := offset_of hs
  rw [lateRefusal, lateOffset_append hfour, refused]
  generalize (of opening s).offset = o at hlen ⊢
  rw [drop_append_of_le_length (by omega), show (of opening s).control = s from rfl]
  have hsix : (s.drop o).length = 6 := by
    rw [length_drop]
    omega
  match hm : s.drop o, hsix with
  | [a, b, c, d, e, f], _ =>
    have hbad := validTokens_eq_false_iff e f
    have hword : unword ([a, b, c, d, e, f] ++ rest) = unword [a, b, c, d, e, f] :=
      unword_append (s := [a, b, c, d, e, f]) (by simp) rest
    have htokens : refusalTokens ([a, b, c, d, e, f] ++ rest) =
        if unword ([a, b, c, d, e, f] ++ rest) = proofRefusalHeader ∧
          validTokens [e, f] = true then some (e, f) else none := rfl
    rw [htokens, hword]
    by_cases hw : unword [a, b, c, d, e, f] = proofRefusalHeader
    · have hrange : (5 < e ∨ 8 < f) ↔ (6 ≤ e.toNat ∨ 8 < f.toNat) := by
        rw [UInt8.lt_iff_toNat_lt, UInt8.lt_iff_toNat_lt]
        rfl
      cases hvalid : validTokens [e, f] with
      | false =>
        have htest := hbad.1 hvalid
        rw [← or_assoc, ← hrange] at htest
        simp only [hw, ne_eq, not_true_eq_false, decide_false, Bool.false_or, and_false,
          Bool.false_eq_true, ↓reduceIte, Option.isSome_none, Bool.not_eq_false', getD_cons_succ,
          getD_cons_zero, Bool.or_eq_true, decide_eq_true_eq, bne_iff_ne]
        exact htest
      | true =>
        have htest : ¬ ((5 < e ∨ 8 < f) ∨ decide (e = 0) ≠ decide (f = 0)) := by
          rw [hrange, or_assoc, ← hbad, hvalid]
          decide
        simp only [hw, ne_eq, not_true_eq_false, decide_false, Bool.false_or, and_self, ↓reduceIte,
          Option.isSome_some, Bool.not_eq_true', getD_cons_succ, getD_cons_zero]
        rw [← Bool.not_eq_true]
        simpa only [Bool.or_eq_true, decide_eq_true_eq, bne_iff_ne, ne_eq] using htest
    · simp [hw]

theorem expectedOf_le_append (opening : Bool) (s bs : Bytes) :
    expectedOf opening s ≤ expectedOf opening (s ++ bs) := by
  cases opening with
  | false => exact le_rfl
  | true =>
    rcases Nat.lt_or_ge s.length 4 with hshort | hlong
    · rw [expectedOf, if_neg (by decide), if_pos hshort, expectedOf, if_neg (by decide)]
      split_ifs <;> omega
    · have hmore : ¬ (s ++ bs).length < 4 := by
        rw [length_append]
        omega
      rw [expectedOf, expectedOf, if_neg (Nat.not_lt.2 hlong), if_neg hmore, unword_append hlong]

theorem expectedOf_le_lateOffset (opening : Bool) (s rest : Bytes) :
    expectedOf opening s ≤ lateOffset opening (s ++ rest) + 6 := by
  cases opening with
  | false => exact Nat.le_add_left 6 _
  | true =>
    rw [expectedOf, if_neg (by decide)]
    split_ifs with hshort hanswer
    · omega
    · have hlong : 4 ≤ s.length := Nat.not_lt.1 hshort
      rw [lateOffset_append (fun _ => hlong)]
      simp [offset, of, acceptedOf, hlong, hanswer]
    · omega

theorem lateRefusal_of_lt {s : Bytes} (h : s.length < expectedOf opening s) :
    lateRefusal opening s = none := by
  rw [lateRefusal, refusalTokens_of_lt]
  rw [length_drop]
  have hbound := expectedOf_le_lateOffset opening s []
  rw [append_nil] at hbound
  omega

theorem expectedOf_le_ten (opening : Bool) (s : Bytes) : expectedOf opening s ≤ 10 := by
  rw [expectedOf]
  split_ifs <;> omega

theorem loop_of {fuel : ℕ} {s : Bytes} (hfuel : 10 ≤ s.length + fuel)
    (hs : s.length ≤ expectedOf opening s) (inn : Bytes) :
    let r := (of opening s).loop chunk opening fuel inn
    r.1.any refused = (lateRefusal opening (s ++ inn)).isSome ∧
      ∃ n, r.2 = inn.drop n ∧ s.length + n ≤ lateOffset opening (s ++ inn) + 6 := by
  have hbound := expectedOf_le_lateOffset opening s inn
  have hten := expectedOf_le_ten opening s
  induction fuel generalizing s inn with
  | zero => exact ⟨refused_of (by omega) inn, 0, rfl, by omega⟩
  | succ fuel ih =>
    rw [loop]
    have hexpected : (of opening s).expected = expectedOf opening s := rfl
    have hcontrol : (of opening s).control = s := rfl
    have haccepted : (of opening s).accepted = acceptedOf opening s := rfl
    rw [hexpected, hcontrol, haccepted]
    split_ifs with hend
    · exact ⟨refused_of (le_antisymm hs hend) inn, 0, rfl, by omega⟩
    · cases hread : readSome chunk (expectedOf opening s - s.length) inn with
      | none =>
        have hnil : inn = [] := by
          by_contra hne
          rw [readSome, if_neg hne] at hread
          cases hread
        subst hnil
        rw [append_nil, lateRefusal_of_lt (Nat.not_le.1 hend)]
        exact ⟨rfl, 0, rfl, by rw [append_nil] at hbound; omega⟩
      | some got =>
        obtain ⟨bs, rest⟩ := got
        obtain ⟨rfl, hne, hle⟩ := readSome_eq_some hread (by omega)
        have hpos : 0 < bs.length := length_pos_iff.2 hne
        have hlen : (s ++ bs).length = s.length + bs.length := length_append
        have hmono := expectedOf_le_append opening s bs
        rcases inspect_of hle (Nat.not_le.1 hend) with hsome | ⟨hnone, hno⟩
        · simp only [hsome]
          have hbound' := expectedOf_le_lateOffset opening (s ++ bs) rest
          obtain ⟨hresult, n, hrest, hn⟩ :=
            ih (by omega) (by omega) rest hbound' (expectedOf_le_ten opening _)
          rw [append_assoc] at hresult hn
          refine ⟨hresult, bs.length + n, ?_, by omega⟩
          rw [hrest, ← drop_drop, drop_left]
        · simp only [hnone]
          rw [← append_assoc, hno rest]
          refine ⟨rfl, bs.length, drop_left.symm, ?_⟩
          rw [append_assoc]
          omega

theorem cppRefusalAfterWriteError_eq (status : IpcStatus) (opening : Bool) (inn : Bytes) :
    (∃ n ≤ lateOffset opening inn + 6,
      (cppRefusalAfterWriteError chunk status opening inn).2 = inn.drop n) ∧
    (cppRefusalAfterWriteError chunk status opening inn).1 =
      refusalAfterWriteError status (lateRefusal opening inn).isSome := by
  rw [cppRefusalAfterWriteError, refusalAfterWriteError]
  by_cases hclosed : status = .disconnected ∨ status = .ioError
  · have hstart : (⟨[], if opening then 4 else 6, false⟩ : RefusalProbe) = .of opening [] := by
      cases opening <;> rfl
    have hfirst : ([] : Bytes).length ≤ expectedOf opening [] := Nat.zero_le _
    obtain ⟨hresult, n, hrest, hn⟩ := @loop_of chunk opening 10 [] (by simp) hfirst inn
    rw [if_neg (by rwa [not_and_or, not_not, not_not]), hstart]
    rw [nil_append] at hresult hn
    cases hloop : (of opening []).loop chunk opening 10 inn with
    | mk found rest =>
      rw [hloop] at hresult hrest
      refine ⟨⟨n, by simpa using hn, ?_⟩, ?_⟩
      · cases found <;> exact hrest
      · rw [← hresult]
        cases found with
        | none => simp
        | some p => cases hp : p.refused <;> simp [hp, hclosed]
  · rw [if_pos (by simpa [not_or] using hclosed), if_neg fun h => hclosed h.1]
    exact ⟨⟨0, Nat.zero_le _, rfl⟩, rfl⟩

end Spec

/-- Whatever a server has sent before a write failed, and however the reads are cut: C++ reports a
refusal exactly when Go does, and neither reads beyond it. -/
theorem late_refusal_agrees (goChunk cppChunk : ℕ → Bytes → ℕ) (opening : Bool) (inn : Bytes)
    (err : ClientErr) (herr : (writeSignalsClosedPeer err).isSome) (status : IpcStatus)
    (hstatus : status = .disconnected ∨ status = .ioError) :
    let go := goRefusalAfterWriteError goChunk true err opening inn
    let cpp := cppRefusalAfterWriteError cppChunk status opening inn
    ((∃ attr required, go.1 = .refused attr required) ↔ cpp.1 = .proofUnavailable) ∧
    ((¬ ∃ attr required, go.1 = .refused attr required) → go.1 = err ∧ cpp.1 = status) ∧
    (∃ n ≤ lateOffset opening inn + 6, go.2 = inn.drop n) ∧
    (∃ n ≤ lateOffset opening inn + 6, cpp.2 = inn.drop n) := by
  obtain ⟨hgoRest, hgo⟩ := @goRefusalAfterWriteError_eq goChunk _ herr opening inn
  obtain ⟨hcppRest, hcpp⟩ := @cppRefusalAfterWriteError_eq cppChunk status opening inn
  have hnot : ∀ attr required, err ≠ .refused attr required := by
    rintro attr required rfl
    simp [writeSignalsClosedPeer] at herr
  have hother : status ≠ .proofUnavailable := by
    rintro rfl
    simp at hstatus
  simp only [hgo, hcpp, refusalAfterWriteError]
  refine ⟨?_, ?_, hgoRest, hcppRest⟩
  · cases lateRefusal opening inn with
    | none => simpa [lateError, hnot] using hother
    | some tokens => simp [lateError, hstatus]
  · cases lateRefusal opening inn with
    | none => simp [lateError]
    | some tokens => simp [lateError]

/-- A session was accepted, and then the caller refused. -/
theorem late_refusal_agrees_accepted : (cppRefusalAfterWriteError (fun _ _ => 3) .disconnected true
      (word sessionAccept ++ word proofRefusalHeader ++ [4, 7, 1])).1 = .proofUnavailable := by
  have hagree := late_refusal_agrees (fun _ _ => 1) (fun _ _ => 3) true
    (word sessionAccept ++ word proofRefusalHeader ++ [4, 7, 1]) .closedPeer (by decide)
    .disconnected (.inl rfl)
  exact hagree.1.1 ⟨4, 7, by decide⟩

end Listen
