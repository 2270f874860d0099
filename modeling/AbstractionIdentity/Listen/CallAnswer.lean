import AbstractionIdentity.Listen.SessionCall

/-!
# What one exchange writes

Whatever a call gives to its connection is part of one answer, and never of the closing marker
(`AnswerPart`); as long as no write failed its own fields say which part (`SessionCall.Written`).
-/

namespace Listen

open Text Stream List SessionCall

def AnswerPart (s : Bytes) : Prop := ∃ f : Answer, f.head ≠ sessionClosing ∧ s <+: f.bytes

theorem AnswerPart.of_part {s t : Bytes} (h : AnswerPart t) (hst : s <+: t) : AnswerPart s := by
  obtain ⟨f, hf, ht⟩ := h
  exact ⟨f, hf, hst.trans ht⟩

theorem answerPart_header {session : Bool} {n : ℕ} {body : Bytes} (hn : n < 2 ^ 30)
    (hbody : body.length ≤ n) : AnswerPart (word (mkHeader session false n) ++ body) := by
  have hlen : (body ++ List.replicate (n - body.length) (0 : UInt8)).length =
      answerSize (mkHeader session false n) := by
    rw [answerSize_mkHeader hn, length_append, length_replicate]
    omega
  refine ⟨⟨mkHeader session false n, _, hlen⟩, mkHeader_ne_closing hn, ?_⟩
  simp only [Frame.bytes, ← append_assoc]
  exact prefix_append _ _

theorem answerPart_word (session : Bool) : AnswerPart (word (mkHeader session false 0)) := by
  have h : AnswerPart (word (mkHeader session false 0) ++ []) :=
    answerPart_header (by decide) (by simp)
  simpa using h

theorem answerPart_nil : AnswerPart [] := ⟨acceptAnswer, by decide, nil_prefix⟩

theorem sent_part (lost : Bool) (buf : Bytes) (fault : Option ℕ) : sent lost buf fault <+: buf := by
  cases fault with
  | none => exact prefix_rfl
  | some n =>
    rw [sent]
    split_ifs
    · exact nil_prefix
    · exact take_prefix n buf

/-- What a call has given to the connection as long as no write failed. -/
def SessionCall.Written (c : SessionCall) (cout : Bytes) : Prop :=
  if c.oneWay then
    cout = [] ∧ c.continued = false ∨
      c.done = true ∧ cout = word (mkHeader c.continued false 0)
  else if c.out.length < 4 then cout = [] ∧ c.continued = false ∧ c.replied = false
  else ∃ n body, n < 2 ^ 30 ∧ cout = word (mkHeader c.continued false n) ++ body ∧
    body.length + c.outLeft = n ∧ (c.replied = true → c.outLeft = 0)

theorem SessionCall.Written.answerPart {c : SessionCall} {cout : Bytes}
    (h : c.Written cout) : AnswerPart cout := by
  rw [SessionCall.Written] at h
  split_ifs at h
  · rcases h with ⟨rfl, -⟩ | ⟨-, rfl⟩
    · exact answerPart_nil
    · exact answerPart_word c.continued
  · rw [h.1]
    exact answerPart_nil
  · obtain ⟨n, body, hn, rfl, hlen, -⟩ := h
    exact answerPart_header hn (by omega)

theorem SessionCall.Written.congr {c d : SessionCall} {cout : Bytes} (h : c.Written cout)
    (hhead : d.head = c.head) (hout : d.out = c.out) (hleft : d.outLeft = c.outLeft)
    (hreplied : d.replied = c.replied) (hcont : d.continued = c.continued)
    (hdone : c.done = true → d.done = true) : d.Written cout := by
  rw [SessionCall.Written] at h ⊢
  rw [oneWay, hhead, hout, hleft, hreplied, hcont]
  rw [oneWay] at h
  split_ifs at h ⊢
  · exact h.imp_right fun hc => ⟨hdone hc.1, hc.2⟩
  · exact h
  · exact h

theorem SessionCall.Written.writeEnd {c : SessionCall} {cout : Bytes} (h : c.Written cout)
    (hout : c.oneWay = false ∧ ¬ c.out.length < 4) (rest : Bytes) :
    (c.writeEnd rest).Written cout := by
  rw [SessionCall.Written, if_neg (by simp [hout.1]), if_neg hout.2] at h
  obtain ⟨n, body, hn, hcout, hlen, hreplied⟩ := h
  rw [SessionCall.Written]
  rw [if_neg (by simpa [SessionCall.writeEnd, SessionCall.oneWay] using hout.1),
    if_neg (by simpa [SessionCall.writeEnd] using hout.2)]
  refine ⟨n, body, hn, hcout, hlen, fun hr => ?_⟩
  simp only [SessionCall.writeEnd, Bool.or_eq_true, decide_eq_true_eq] at hr ⊢
  rcases hr with hr | hr
  · exact hreplied hr
  · exact hr

section Write

variable {c : SessionCall} {p cout : Bytes} {retiring lost : Bool} {fault : Option ℕ}

theorem write_keeps (c : SessionCall) (p : Bytes) (retiring lost : Bool) (fault : Option ℕ) :
    let d := (c.write p retiring lost fault).1
    d.head = c.head ∧ d.headerAt = c.headerAt ∧ d.remaining = c.remaining ∧
      d.closed = c.closed ∧ d.reading = c.reading ∧ d.done = c.done ∧
      (c.broken = true → d.broken = true) := by
  simp only [write, writeHeader, writeBody]
  split_ifs <;> (try split) <;> simp +contextual [writeEnd]

theorem write_closed (h : c.closed = true) : c.write p retiring lost fault = (c, [], true) := by
  rw [write, if_pos h]

theorem writeHeader_written (hway : c.oneWay = false) (hout : c.out.length < 4)
    (h : c.Written cout) :
    let r := c.writeHeader p retiring lost fault
    AnswerPart (cout ++ r.2.1) ∧
      (r.1.Written (cout ++ r.2.1) ∨ r.1.broken = true ∧ r.2.2 = true) := by
  rw [SessionCall.Written, if_neg (by simp [hway]), if_pos hout] at h
  obtain ⟨rfl, hcont, hreplied⟩ := h
  simp only [writeHeader, nil_append]
  split_ifs with hshort hlarge
  · refine ⟨answerPart_nil, .inl ?_⟩
    rw [SessionCall.Written, if_neg (by simpa [oneWay] using hway), if_pos hshort]
    exact ⟨rfl, hcont, hreplied⟩
  · exact ⟨answerPart_nil, .inr ⟨rfl, rfl⟩⟩
  · have hn : (unword (c.out ++ p.take (4 - c.out.length))).toNat < 2 ^ 30 := by
      have hmask : lengthMask.toNat = 2 ^ 30 - 1 := rfl
      omega
    generalize (unword (c.out ++ p.take (4 - c.out.length))).toNat = n at hn ⊢
    have hpart : AnswerPart (word (mkHeader (!retiring) false n) ++
        (p.drop (4 - c.out.length)).take n) :=
      answerPart_header hn (length_take_le _ _)
    cases fault with
    | some k =>
      simp only
      exact ⟨hpart.of_part (sent_part _ _ _), .inr ⟨trivial, trivial⟩⟩
    | none =>
      simp only
      refine ⟨hpart, .inl (SessionCall.Written.writeEnd ?_ ⟨?_, hshort⟩ _)⟩
      · rw [SessionCall.Written, if_neg (by simpa [oneWay] using hway), if_neg hshort]
        refine ⟨n, _, hn, rfl, ?_, ?_⟩
        · have hle := length_take_le n (p.drop (4 - c.out.length))
          simp only
          omega
        · intro hr
          rw [hreplied] at hr
          cases hr
      · simpa [oneWay] using hway

theorem writeBody_written (hway : c.oneWay = false) (hout : ¬ c.out.length < 4)
    (h : c.Written cout) :
    let r := c.writeBody p lost fault
    AnswerPart (cout ++ r.2.1) ∧
      (r.1.Written (cout ++ r.2.1) ∨ r.1.broken = true ∧ r.2.2 = true) := by
  have hend := h.writeEnd ⟨hway, hout⟩ p
  have hpart := h.answerPart
  rw [SessionCall.Written, if_neg (by simp [hway]), if_neg hout] at h
  obtain ⟨n, body, hn, rfl, hlen, hreplied⟩ := h
  simp only [writeBody]
  split_ifs with hmore
  · have hchunk : (p.take c.outLeft).length ≤ c.outLeft := length_take_le _ _
    have hpart' : AnswerPart
        (word (mkHeader c.continued false n) ++ (body ++ p.take c.outLeft)) := by
      apply answerPart_header hn
      rw [length_append]
      omega
    rw [← append_assoc] at hpart'
    cases fault with
    | some k =>
      simp only
      refine ⟨hpart'.of_part ?_, .inr ⟨trivial, trivial⟩⟩
      exact (prefix_append_right_inj _).2 (sent_part _ _ _)
    | none =>
      simp only
      have hway' : oneWay
          { c with outLeft := c.outLeft - (p.take c.outLeft).length } = false := hway
      have hnext : SessionCall.Written
          { c with outLeft := c.outLeft - (p.take c.outLeft).length }
          (word (mkHeader c.continued false n) ++ body ++ p.take c.outLeft) := by
        rw [SessionCall.Written, if_neg (by rw [hway']; decide), if_neg hout]
        refine ⟨n, body ++ p.take c.outLeft, hn, append_assoc _ _ _, ?_, ?_⟩
        · rw [length_append]
          simp only
          omega
        · intro hr
          exact absurd (hreplied hr) (by omega)
      exact ⟨hpart', .inl (hnext.writeEnd ⟨hway', hout⟩ _)⟩
  · simpa using ⟨hpart, .inl hend⟩

theorem write_written (h : c.Written cout) : let r := c.write p retiring lost fault
    AnswerPart (cout ++ r.2.1) ∧
      (r.1.Written (cout ++ r.2.1) ∨ r.1.broken = true ∧ r.2.2 = true) := by
  simp only [write]
  split_ifs with hclosed hway hout
  · simpa using ⟨h.answerPart, .inl h⟩
  · refine ⟨by simpa using h.answerPart, .inr ⟨rfl, rfl⟩⟩
  · exact writeHeader_written (by simpa using hway) hout h
  · exact writeBody_written (by simpa using hway) hout h

end Write

theorem closeEnd_written {c : SessionCall} {cout : Bytes} {retiring lost : Bool}
    {fault : Option ℕ} (hdone : c.done = false) (h : c.Written cout) :
    let r := c.closeEnd retiring lost fault
    AnswerPart (cout ++ r.2) ∧ (r.1.Written (cout ++ r.2) ∨ r.1.broken = true) := by
  have hkeep : ∀ d : SessionCall, d.head = c.head → d.out = c.out →
      d.outLeft = c.outLeft → d.replied = c.replied → d.continued = c.continued →
      AnswerPart (cout ++ []) ∧ (d.Written (cout ++ []) ∨ d.broken = true) := by
    intro d hhead hout hleft hreplied hcont
    rw [append_nil]
    refine ⟨h.answerPart, .inl (h.congr hhead hout hleft hreplied hcont ?_)⟩
    simp [hdone]
  simp only [closeEnd]
  split_ifs with hbroken hunread hway hsilent
  · exact hkeep _ rfl rfl rfl rfl rfl
  · exact hkeep _ rfl rfl rfl rfl rfl
  · have hway' : c.oneWay = true := hway
    rw [SessionCall.Written, if_pos hway'] at h
    have hcout : cout = [] := by
      rcases h with ⟨rfl, -⟩ | ⟨hd, -⟩
      · rfl
      · rw [hdone] at hd
        cases hd
    subst hcout
    refine ⟨(answerPart_word _).of_part (sent_part _ _ _), ?_⟩
    cases fault with
    | some n => exact .inr rfl
    | none =>
      refine .inl ?_
      rw [SessionCall.Written, if_pos (by simpa [oneWay] using hway')]
      exact .inr ⟨rfl, rfl⟩
  · exact hkeep _ rfl rfl rfl rfl rfl
  · exact hkeep _ rfl rfl rfl rfl rfl

end Listen
