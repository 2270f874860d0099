import AbstractionIdentity.Listen.Connection
import AbstractionIdentity.Listen.FrameCodec
import Mathlib.Data.List.Induction

/-!
# The reply on a session, however it is cut

`sessionCall.Write` holds the header of a reply back until its four bytes are there, adds whether
the session goes on, and passes the payload through. `SessionCall.writes` is a sequence of `Write`s
up to the first that fails: `writes_header` until the header is whole, `writes_body` after it.
-/

namespace Listen

open Text Stream List SessionCall

/-- `Write`s on a connection that takes all it is given, each with what `isRetiring`
answers in it, up to the first that fails. -/
def SessionCall.writes (c : SessionCall) : List (Bytes × Bool) → SessionCall × Bytes × Bool
  | [] => (c, [], false)
  | (p, retiring) :: ws =>
    let (d, wrote, failed) := c.write p retiring false none
    if failed then (d, wrote, true)
    else
      let (d, more, failed) := d.writes ws
      (d, wrote ++ more, failed)

def given (ws : List (Bytes × Bool)) : Bytes := (ws.map Prod.fst).flatten

structure SessionCall.Unanswered (c : SessionCall) : Prop where
  out : c.out = []
  replied : c.replied = false
  broken : c.broken = false
  closed : c.closed = false
  twoWay : c.oneWay = false

structure SessionCall.Answering (c : SessionCall) : Prop where
  out : ¬ c.out.length < 4
  replied : c.replied = decide (c.outLeft = 0)
  broken : c.broken = false
  closed : c.closed = false
  twoWay : c.oneWay = false

def SessionCall.paid (c : SessionCall) (n : ℕ) : SessionCall :=
  { c with
    outLeft := c.outLeft - n, replied := decide (c.outLeft ≤ n), broken := decide (c.outLeft < n) }

variable {c : SessionCall} {p : Bytes} {retiring : Bool} {ws : List (Bytes × Bool)}

@[simp] theorem given_nil : given [] = [] := rfl

@[simp] theorem given_cons (p : Bytes) (retiring : Bool) (ws : List (Bytes × Bool)) :
    given ((p, retiring) :: ws) = p ++ given ws := rfl

@[simp] theorem given_append (ws ws' : List (Bytes × Bool)) :
    given (ws ++ ws') = given ws ++ given ws' := by
  simp [given]

theorem writes_append_of_ok {ws ws' : List (Bytes × Bool)} {d : SessionCall} {out : Bytes}
    (h : c.writes ws = (d, out, false)) :
    c.writes (ws ++ ws') = ((d.writes ws').1, out ++ (d.writes ws').2.1, (d.writes ws').2.2) := by
  induction ws generalizing c out with
  | nil =>
    cases h
    rfl
  | cons w ws ih =>
    obtain ⟨p, retiring⟩ := w
    rw [writes] at h
    rw [cons_append, writes]
    cases hw : c.write p retiring false none with
    | mk e r =>
      obtain ⟨wrote, failed⟩ := r
      cases failed with
      | true => simp [hw] at h
      | false =>
        simp only [hw, Bool.false_eq_true, ↓reduceIte, Prod.mk.injEq] at h ⊢
        obtain ⟨hd, hout, hok⟩ := h
        have hrest : e.writes ws = (d, (e.writes ws).2.1, false) := by
          rw [← hd, ← hok]
        rw [ih hrest, ← hout, append_assoc]
        exact ⟨rfl, rfl, rfl⟩

section Body

theorem SessionCall.Answering.paid (h : c.Answering) {n : ℕ} (hn : n ≤ c.outLeft) :
    (c.paid n).Answering where
  out := h.out
  replied := decide_eq_decide.2 (show c.outLeft ≤ n ↔ c.outLeft - n = 0 by omega)
  broken := by simpa [SessionCall.paid] using hn
  closed := h.closed
  twoWay := h.twoWay

theorem write_body (h : c.Answering) : c.write p retiring false none =
      (c.paid p.length, p.take c.outLeft, decide (c.outLeft < p.length)) := by
  rw [write, if_neg (by simp [h.closed]), if_neg (by simp [h.twoWay]), if_neg h.out,
    writeBody]
  by_cases hmore : p ≠ [] ∧ 0 < c.outLeft
  · have hlen : (p.take c.outLeft).length = min c.outLeft p.length := length_take
    have hleft : c.outLeft - min c.outLeft p.length = c.outLeft - p.length := by omega
    have hrest : p.drop (min c.outLeft p.length) ≠ [] ↔ c.outLeft < p.length := by
      rw [Ne, drop_eq_nil_iff]
      omega
    have hnone : decide (c.outLeft = 0) = false := decide_eq_false hmore.2.ne'
    simp only [if_pos hmore, hlen, hleft, hrest, writeEnd, paid,
      h.replied, h.broken, hnone, Bool.false_or]
    simp only [Nat.sub_eq_zero_iff_le]
  · rw [if_neg hmore]
    have hnone : p = [] ∨ c.outLeft = 0 := by
      by_contra hno
      rw [not_or] at hno
      exact hmore ⟨hno.1, Nat.pos_of_ne_zero hno.2⟩
    rcases hnone with rfl | hzero
    · simp [writeEnd, paid, h.replied, h.broken]
    · simp [writeEnd, paid, h.replied, h.broken, hzero, length_pos_iff]

theorem writes_body (h : c.Answering) :
    c.writes ws = (c.paid (given ws).length, (given ws).take c.outLeft,
      decide (c.outLeft < (given ws).length)) := by
  induction ws generalizing c with
  | nil =>
    have hkeep : c.paid 0 = c := by
      have hb : c.broken = decide (c.outLeft < 0) := by simpa using h.broken
      simp only [paid, Nat.sub_zero, Nat.le_zero, ← h.replied, ← hb]
    simp [writes, hkeep]
  | cons w ws ih =>
    obtain ⟨p, retiring⟩ := w
    rw [writes, write_body h, given_cons]
    by_cases hlt : c.outLeft < p.length
    · have hle : c.outLeft ≤ p.length := hlt.le
      have htotal : c.outLeft < (p ++ given ws).length := by
        rw [length_append]
        omega
      simp only [hlt, decide_true, ↓reduceIte, take_append_of_le_length hle, htotal]
      simp only [paid, Nat.sub_eq_zero_of_le hle, hle, hlt, htotal,
        Nat.sub_eq_zero_of_le htotal.le, htotal.le]
    · have hle : p.length ≤ c.outLeft := Nat.not_lt.1 hlt
      have hleft : (c.paid p.length).outLeft = c.outLeft - p.length := rfl
      simp only [hlt, decide_false, Bool.false_eq_true, ↓reduceIte, ih (h.paid hle), hleft,
        take_append, take_of_length_le hle, length_append]
      refine Prod.ext ?_ (Prod.ext rfl ?_)
      · simp only [paid, Nat.sub_sub, Nat.sub_le_iff_le_add', Nat.sub_lt_iff_lt_add' hle]
      · simp only [Nat.sub_lt_iff_lt_add' hle]

end Body

section Header

theorem writes_header (h : c.Unanswered) {s : Bytes} (hlen : (s ++ given ws).length < 4) :
    writes { c with out := s } ws = ({ c with out := s ++ given ws }, [], false) := by
  induction ws generalizing s with
  | nil => simp [writes]
  | cons w ws ih =>
    obtain ⟨p, retiring⟩ := w
    rw [given_cons, ← append_assoc] at hlen ⊢
    have hshort : (s ++ p).length < 4 := by
      rw [length_append] at hlen
      omega
    have hs : s.length < 4 := by
      rw [length_append] at hshort
      omega
    have hp : p.length ≤ 4 - s.length := by
      rw [length_append] at hshort
      omega
    have hway : oneWay { c with out := s } = false := h.twoWay
    have hwrite : write { c with out := s } p retiring false none =
        ({ c with out := s ++ p }, [], false) := by
      rw [write, if_neg (by simp [h.closed]), if_neg (by simp [hway]), if_pos hs,
        writeHeader]
      simp only [take_of_length_le hp, if_pos hshort]
    rw [writes, hwrite]
    simp only [Bool.false_eq_true, ↓reduceIte, ih hlen, nil_append]

def SessionCall.headed (c : SessionCall) (n : ℕ) (retiring : Bool) : SessionCall :=
  { c with out := word (.ofNat n), outLeft := n, continued := !retiring, replied := n = 0 }

theorem SessionCall.Unanswered.headed (h : c.Unanswered) (n : ℕ) (retiring : Bool) :
    (c.headed n retiring).Answering where
  out := by simp [SessionCall.headed]
  replied := rfl
  broken := h.broken
  closed := h.closed
  twoWay := h.twoWay

theorem write_header (h : c.Unanswered) {n : ℕ} (hn : n < 2 ^ 30) {s t : Bytes}
    (hs : s.length < 4) (hp : s ++ p = word (.ofNat n) ++ t) :
    SessionCall.write { c with out := s } p retiring false none =
      ((c.headed n retiring).paid t.length, word (mkHeader (!retiring) false n) ++ t.take n,
        decide (n < t.length)) := by
  have hcut : 4 - s.length ≤ p.length := by
    have hlen := congrArg List.length hp
    simp only [length_append, length_word] at hlen
    omega
  have hsum : s.length + (4 - s.length) = 4 := by omega
  have hword : s ++ p.take (4 - s.length) = word (.ofNat n) := by
    have htake := congrArg (List.take 4) hp
    rw [take_left' (length_word _), ← hsum, take_length_add_append] at htake
    exact htake
  have hrest : p.drop (4 - s.length) = t := by
    have hdrop := congrArg (List.drop 4) hp
    rw [drop_left' (length_word _), ← hsum, drop_length_add_append] at hdrop
    exact hdrop
  have hnat : (UInt32.ofNat n).toNat = n := toNat_ofNat_limit hn
  have hmask : ¬ lengthMask.toNat < n := by
    have hval : lengthMask.toNat = 2 ^ 30 - 1 := rfl
    omega
  have hway : SessionCall.oneWay { c with out := s } = false := h.twoWay
  have hlen : (t.take n).length = min n t.length := length_take
  have hleft : n - min n t.length = n - t.length := by omega
  have hover : t.drop (min n t.length) ≠ [] ↔ n < t.length := by
    rw [Ne, drop_eq_nil_iff]
    omega
  rw [SessionCall.write, if_neg (by simp [h.closed]), if_neg (by simp [hway]), if_pos hs,
    SessionCall.writeHeader]
  simp only [hword, hrest, length_word, Nat.lt_irrefl, ↓reduceIte, unword_word, hnat, hmask,
    hlen, hleft, hover]
  simp only [SessionCall.writeEnd, SessionCall.paid, SessionCall.headed, h.replied, h.broken,
    Bool.false_or, Nat.sub_eq_zero_iff_le, hover]

end Header

theorem exists_header_write (ws : List (Bytes × Bool)) (h : 4 ≤ (given ws).length) :
    ∃ pre p retiring post, ws = pre ++ (p, retiring) :: post ∧ (given pre).length < 4 ∧
      4 ≤ (given pre ++ p).length := by
  induction ws using List.reverseRecOn with
  | nil => simp at h
  | append_singleton ws w ih =>
    by_cases hws : 4 ≤ (given ws).length
    · obtain ⟨pre, p, retiring, post, rfl, hpre, hp⟩ := ih hws
      exact ⟨pre, p, retiring, post ++ [w], by simp, hpre, hp⟩
    · refine ⟨ws, w.1, w.2, [], rfl, Nat.not_le.1 hws, ?_⟩
      rwa [given_append, given_cons, given_nil, append_nil] at h

theorem mkHeader_session {n : ℕ} (hn : n < 2 ^ 30) :
    mkHeader true false n = UInt32.ofNat n ||| sessionFlag := by
  apply UInt32.toNat_inj.1
  rw [toNat_mkHeader hn, UInt32.toNat_or, toNat_ofNat_limit hn, Nat.or_comm]
  have hor := Nat.two_pow_add_eq_or_of_lt (b := n) (i := 31) (by omega) 1
  rw [Nat.mul_one] at hor
  have hflag : sessionFlag.toNat = 2 ^ 31 := rfl
  simp only [↓reduceIte, Bool.false_eq_true, hflag, ← hor]
  omega

def replyHeader (retiring : Bool) (n : ℕ) : UInt32 :=
  if retiring then .ofNat n else .ofNat n ||| sessionFlag

theorem mkHeader_eq_replyHeader {n : ℕ} (hn : n < 2 ^ 30) (retiring : Bool) :
    mkHeader (!retiring) false n = replyHeader retiring n := by
  cases retiring with
  | false => exact mkHeader_session hn
  | true => rfl

section Writes

variable {frame : Bytes}

theorem writes_split (h : c.Unanswered) {n : ℕ} (hn : n < 2 ^ 30) {pre post : List (Bytes × Bool)}
    (hpre : (given pre).length < 4) {t : Bytes} (hp : given pre ++ p = word (.ofNat n) ++ t) :
    c.writes (pre ++ (p, retiring) :: post) = ((c.headed n retiring).paid (t ++ given post).length,
        word (mkHeader (!retiring) false n) ++ (t ++ given post).take n,
        decide (n < (t ++ given post).length)) := by
  have hstart : { c with out := [] } = c := by rw [← h.out]
  have hfirst := @writes_header c pre h [] hpre
  rw [hstart, nil_append] at hfirst
  have hsent : writes { c with out := given pre } ((p, retiring) :: post) =
      ((c.headed n retiring).paid (t ++ given post).length,
        word (mkHeader (!retiring) false n) ++ (t ++ given post).take n,
        decide (n < (t ++ given post).length)) := by
    -- the payload of this write and of those after it are one sequence of the payload
    have hbody := @writes_body _ ((t, false) :: post) (h.headed n retiring)
    rw [writes, write_body (h.headed n retiring), given_cons] at hbody
    rw [writes, write_header h hn hpre hp]
    have hleft : (c.headed n retiring).outLeft = n := rfl
    rw [hleft] at hbody
    by_cases hover : n < t.length
    · simp only [hover, decide_true, ↓reduceIte, Prod.mk.injEq] at hbody ⊢
      exact ⟨hbody.1, by rw [hbody.2.1], hbody.2.2⟩
    · simp only [hover, decide_false, Bool.false_eq_true, ↓reduceIte, Prod.mk.injEq] at hbody ⊢
      refine ⟨hbody.1, ?_, hbody.2.2⟩
      rw [append_assoc, hbody.2.1]
  rw [writes_append_of_ok hfirst, hsent]
  rfl

theorem replied_writes_iff (h : c.Unanswered) {n : ℕ} (hn : n < 2 ^ 30) {body : Bytes}
    (hcut : given ws <+: word (.ofNat n) ++ body) :
    (c.writes ws).1.replied = true ↔ 4 + n ≤ (given ws).length := by
  rcases Nat.lt_or_ge (given ws).length 4 with hshort | hlong
  · have hstart : { c with out := [] } = c := by rw [← h.out]
    have hfirst := @writes_header c ws h [] hshort
    rw [hstart, nil_append] at hfirst
    have hlt : ¬ 4 + n ≤ (given ws).length := by omega
    simp [hfirst, h.replied, hlt]
  · obtain ⟨pre, p, retiring, post, rfl, hpre, hp⟩ := exists_header_write ws hlong
    simp only [given_append, given_cons, ← append_assoc] at hcut ⊢
    obtain ⟨t, ht⟩ : word (.ofNat n) <+: given pre ++ p :=
      prefix_of_prefix_length_le (prefix_append _ body)
        ((prefix_append _ (given post)).trans hcut) (by simpa using hp)
    rw [writes_split h hn hpre ht.symm, ← ht]
    simp only [SessionCall.paid, SessionCall.headed, append_assoc, length_append,
      length_word, decide_eq_true_iff]
    omega

end Writes

/-- However the encoding of a frame is cut, the call does what one `Write` of it does, with the
answer of `isRetiring` when the header became whole; a byte beyond the reply is refused and ends the
session. -/
theorem reply_rewrite (c : SessionCall) (hc : c.Unanswered) (limit : UInt32) (frame : Bytes)
    (hfits : frame.length ≤ frameLimit limit) (ws : List (Bytes × Bool)) (extra : Bytes)
    (hcut : given ws = encoding frame ++ extra) :
    ∃ pre p retiring post, ws = pre ++ (p, retiring) :: post ∧
      (given pre).length < 4 ∧ 4 ≤ (given pre ++ p).length ∧
      c.writes ws = c.write (encoding frame ++ extra) retiring false none ∧
      (c.writes ws).2.1 = word (replyHeader retiring frame.length) ++ frame ∧
      (∀ done, done <+: ws → (given done).length ≤ (encoding frame).length →
        ((c.writes done).1.replied = true ↔ given done = encoding frame)) ∧
      ((c.writes ws).2.2 = true ↔ extra ≠ []) ∧
      (extra ≠ [] → ∀ s retiring lost fault deadlineSet, (Serve.afterCall s
        ((c.writes ws).1.closeEnd retiring lost fault).1 deadlineSet).pc = .ended) := by
  have hn : frame.length < 2 ^ 30 := hfits.trans_lt (frameLimit_lt limit)
  have hlong : 4 ≤ (given ws).length := by
    rw [hcut, encoding, append_assoc, length_append, length_word]
    omega
  obtain ⟨pre, p, retiring, post, rfl, hpre, hp⟩ := exists_header_write ws hlong
  refine ⟨pre, p, retiring, post, rfl, hpre, hp, ?_⟩
  have hall := hcut
  simp only [given_append, given_cons, ← append_assoc] at hall
  obtain ⟨t, ht⟩ : word (.ofNat frame.length) <+: given pre ++ p := by
    refine prefix_of_prefix_length_le ?_ (prefix_append _ (given post))
      (by simpa using hp)
    rw [hall, encoding, append_assoc]
    exact prefix_append _ _
  have hbody : t ++ given post = frame ++ extra := by
    rw [← ht, encoding, append_assoc, append_assoc] at hall
    exact append_cancel_left hall
  have hwrites := @writes_split c _ retiring hc _ hn _ post hpre _ ht.symm
  rw [hbody] at hwrites
  have hover : frame.length < (frame ++ extra).length ↔ extra ≠ [] := by
    rw [length_append, ← length_pos_iff]
    omega
  have hstart : { c with out := [] } = c := by rw [← hc.out]
  have hone := @write_header c (encoding frame ++ extra) retiring hc _ hn [] _
    (by simp) (append_assoc _ _ _)
  rw [hstart] at hone
  refine ⟨hwrites.trans hone.symm, ?_, ?_, ?_, ?_⟩
  · rw [hwrites, take_left' rfl, mkHeader_eq_replyHeader hn]
  · intro done hdone hle
    have hgiven : given done <+: encoding frame := by
      obtain ⟨later, hlater⟩ := hdone
      have hprefix : given done <+: encoding frame ++ extra := by
        rw [← hcut, ← hlater, given_append]
        exact prefix_append _ _
      exact prefix_of_prefix_length_le hprefix (prefix_append _ extra) hle
    rw [replied_writes_iff hc hn hgiven]
    constructor
    · intro hge
      refine hgiven.eq_of_length_le ?_
      rwa [encoding, length_append, length_word]
    · intro heq
      rw [heq, encoding, length_append, length_word]
  · rw [hwrites]
    simpa using hover
  · intro hextra s retiring' lost fault deadlineSet
    have hbroken : (c.writes (pre ++ (p, retiring) :: post)).1.broken = true := by
      rw [hwrites]
      exact decide_eq_true (hover.2 hextra)
    have hclosed : ((c.writes (pre ++ (p, retiring) :: post)).1.closeEnd
        retiring' lost fault).1.broken = true := by
      simp only [closeEnd, hbroken, ↓reduceIte]
    rw [Serve.afterCall, hclosed]
    rfl

/-- The reply `[7]` in three `Write`s, with retirement asked for after the header. -/
theorem reply_rewrite_threeWrites : ((SessionCall.new sessionFlag).writes
      [([0, 0], false), ([0, 1], false), ([7], true)]).2.1 = [128, 0, 0, 1, 7] := by
  have hc : (new sessionFlag).Unanswered := ⟨rfl, rfl, rfl, rfl, by decide⟩
  obtain ⟨pre, p, retiring, post, hws, hpre, hp, -, hout, -⟩ :=
    reply_rewrite (new sessionFlag) hc 0 [7] (by decide)
      [([0, 0], false), ([0, 1], false), ([7], true)] [] rfl
  have hretiring : retiring = false := by
    rcases pre with _ | ⟨a, _ | ⟨b, _ | ⟨d, pre⟩⟩⟩
    · cases hws
      rfl
    · cases hws
      rfl
    · cases hws
      exact absurd hpre (by decide)
    · simp at hws
  rw [hout, hretiring]
  decide

end Listen
