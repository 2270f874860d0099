import AbstractionIdentity.Listen.Client

/-!
# The account of a client call

`ClientCall.Ledger c o sent seen` relates a call to what it has written to its present connection
and read from it, by the `Origin` of the connection: what was sent is a part of one request, and
what was read is the answer to the opening and then one answer. Every step keeps it.
-/

namespace Listen

open Text Stream List ClientPc

inductive Origin where
  | fresh
  | pooled
  | plain
  deriving DecidableEq

def Req.request (q : Req) : Origin → Request
  | .plain => ⟨mkHeader false false q.frame.length, q.frame,
      (lengthOf_mkHeader q.length_lt).symm⟩
  | _ => ⟨q.flags, q.frame, (lengthOf_mkHeader q.length_lt).symm⟩

theorem Req.body_request (q : Req) (o : Origin) : (q.request o).body = q.frame := by
  cases o <;> rfl

def Origin.intro : Origin → Bytes
  | .fresh => word sessionAccept
  | _ => []

def Req.rest (q : Req) : WriteKind → Bytes
  | .opening => q.frame
  | _ => []

/-- The part of the request that was not sent, as long as the call does not give
up for another reason than a missing session. -/
def ClientPc.unsent (q : Req) : ClientPc → Option Bytes
  | .use _ => some (q.request .fresh).bytes
  | .write k todo => some (todo.flatten ++ q.rest k)
  | .read .ack _ _ => some q.frame
  | .read .answer _ _ => some []
  | .read (.reply _) _ _ => some []
  | .finish true _ => some []
  | .finish false (.ret out) => if out = .error .noSession then some q.frame else none
  | _ => none

def ClientPc.Reads (o : Origin) (seen : Bytes) : ClientPc → Prop
  | .use fresh => o = (if fresh then .fresh else .pooled) ∧ seen = []
  | .write .opening _ => o = .fresh ∧ seen = []
  | .write .body _ => o = .fresh ∧ seen = o.intro
  | .write .pooled _ => o = .pooled ∧ seen = o.intro
  | .write .single _ => o = .fresh
  | .write .plain _ => o = .plain
  | .read .ack need got => o = .fresh ∧ need = 4 ∧ got.length < need ∧ seen = got
  | .read .answer need got => o ≠ .plain ∧ need = 4 ∧ got.length < need ∧ seen = o.intro ++ got
  | .read (.reply _) need got => o ≠ .plain ∧ got.length < need ∧
      ∃ w, answerSize w = need ∧ seen = o.intro ++ (word w ++ got)
  | .read _ _ _ => True
  | .finish true next => o ≠ .plain ∧ next ≠ .retry ∧ next ≠ .ret (.error .noSession) ∧
      ∃ f : Answer, seen = o.intro ++ f.bytes
  | .finish false .retry => o = .fresh ∧ seen = word sessionClosing ∨
      o ≠ .plain ∧ seen = o.intro ++ word sessionClosing
  | .finish false (.ret out) => out = .error .noSession → o = .fresh
  | _ => False

structure ClientCall.Ledger (c : ClientCall) (o : Origin) (sent seen : Bytes) : Prop where
  part : sent <+: (c.req.request o).bytes
  unsent : ∀ u, c.pc.unsent c.req = some u → sent ++ u = (c.req.request o).bytes
  reads : c.pc.Reads o seen

section Step

variable {c : ClientCall} {o : Origin} {sent seen : Bytes}

theorem ledger_of_loose {pc : ClientPc} (hpart : sent <+: (c.req.request o).bytes)
    (h : pc.loose = true) : ClientCall.Ledger { c with pc := pc } o sent seen where
  part := hpart
  unsent := fun u hu => by
    cases pc with
    | read k need got => cases k <;> simp_all [loose, unsent]
    | finish keep next =>
      cases keep <;> cases next <;> simp_all [loose, unsent]
    | _ => cases h
  reads := by
    cases pc with
    | read k need got => cases k <;> simp_all [loose, ClientPc.Reads]
    | finish keep next =>
      cases keep <;> cases next <;> simp_all [loose, ClientPc.Reads]
    | _ => cases h

variable {bs got : Bytes} {k : WriteKind} {need : ℕ}

theorem loose_received (q : Req) {k : ReadKind}
    (hk : k ≠ .ack ∧ k ≠ .answer ∧ ∀ keep, k ≠ .reply keep) : (q.received k got).loose = true := by
  cases k with
  | ack => exact absurd rfl hk.1
  | answer => exact absurd rfl hk.2.1
  | reply keep => exact absurd rfl (hk.2.2 keep)
  | _ =>
    simp only [Req.received, readBody]
    repeat' split
    all_goals first
      | rfl
      | exact loose_fail (refusalOf_ne_noSession _)
      | exact loose_fail (ClosedErr.toErr_ne_noSession _)

theorem flatten_parts (q : Req) (k : WriteKind) : (q.parts k).flatten ++ q.rest k = match k with
    | .body | .single => q.frame
    | .plain => (q.request .plain).bytes
    | _ => (q.request .fresh).bytes := by
  have hbody : (if q.frame = [] then [] else [q.frame]).flatten = q.frame := by
    split_ifs with h
    · simp [h]
    · simp
  cases k <;> simp [Req.parts, Req.rest, Req.request, Frame.bytes, flatten_headed, hbody]

theorem ledger_afterWrite (hsent : sent ++ c.req.rest k =
    (c.req.request o).bytes) (hreads : (write k []).Reads o seen) :
    ClientCall.Ledger { c with pc := c.req.afterWrite k } o sent seen := by
  have hpart : sent <+: (c.req.request o).bytes := ⟨_, hsent⟩
  cases k with
  | opening =>
    obtain ⟨rfl, rfl⟩ := hreads
    refine ⟨hpart, fun u hu => ?_, rfl, rfl, by decide, rfl⟩
    cases hu
    exact hsent
  | body =>
    obtain ⟨rfl, rfl⟩ := hreads
    refine ⟨hpart, fun u hu => ?_, by decide, rfl, by decide, (append_nil _).symm⟩
    cases hu
    exact hsent
  | pooled =>
    obtain ⟨rfl, rfl⟩ := hreads
    refine ⟨hpart, fun u hu => ?_, by decide, rfl, by decide, (append_nil _).symm⟩
    cases hu
    exact hsent
  | single | plain =>
    apply ledger_of_loose hpart
    rw [Req.afterWrite]
    split_ifs <;> rfl

theorem ledger_startWrite (hsent : sent ++ ((c.req.parts k).flatten ++
    c.req.rest k) = (c.req.request o).bytes) (hreads : (write k []).Reads o seen) :
    ClientCall.Ledger { c with pc := c.req.startWrite k } o sent seen := by
  rw [Req.startWrite]
  split
  next hnil =>
    rw [hnil] at hsent
    exact ledger_afterWrite hsent hreads
  next todo hne =>
    refine ⟨⟨_, hsent⟩, fun u hu => ?_, ?_⟩
    · cases hu
      exact hsent
    · cases k <;> exact hreads

theorem ClientCall.Ledger.readMore (h : c.Ledger o sent seen) {k : ReadKind}
    (hpc : c.pc = .read k need got) (hpart : (got ++ bs).length < need) :
    ClientCall.Ledger { c with pc := .read k need (got ++ bs) } o sent (seen ++ bs) := by
  have hreads := h.reads
  have hunsent := h.unsent
  rw [hpc] at hreads hunsent
  refine ⟨h.part, fun u hu => hunsent u ?_, ?_⟩
  · cases k <;> exact hu
  · cases k with
    | ack =>
      obtain ⟨ho, hneed, -, rfl⟩ := hreads
      exact ⟨ho, hneed, hpart, rfl⟩
    | answer =>
      obtain ⟨ho, hneed, -, rfl⟩ := hreads
      exact ⟨ho, hneed, hpart, append_assoc _ _ _⟩
    | reply keep =>
      obtain ⟨ho, -, w, hw, rfl⟩ := hreads
      exact ⟨ho, hpart, w, hw, by simp⟩
    | _ => trivial

theorem ClientCall.Ledger.readFails (h : c.Ledger o sent seen) {k : ReadKind}
    {got' : Bytes} {e : ClientErr} (hpc : c.pc = .read k need got)
    (he : e ≠ .noSession) (seen' : Bytes) :
    ClientCall.Ledger { c with pc := readFailed c.live k got' e } o sent seen' := by
  by_cases hno : readFailed c.live k got' e = .fail .noSession
  · obtain ⟨rfl, -⟩ := readFailed_noSession he hno
    have hreads := h.reads
    have hunsent := h.unsent
    rw [hpc] at hreads hunsent
    rw [hno]
    refine ⟨h.part, fun u hu => hunsent u ?_, fun _ => hreads.1⟩
    simpa [ClientPc.fail, ClientPc.unsent] using hu
  · rcases readFailed_cases he with hloose | ⟨-, hfail⟩
    · exact ledger_of_loose h.part hloose
    · exact absurd hfail hno

theorem ledger_finish {keep : Bool} {reply : Bytes} (ho : o ≠ .plain)
    (hsent : sent = (c.req.request o).bytes) (f : Answer) (hseen : seen = o.intro ++ f.bytes) :
    ClientCall.Ledger { c with pc := .finish keep (.ret (.reply reply)) } o sent seen := by
  cases keep with
  | false => exact ledger_of_loose (hsent ▸ prefix_refl _) rfl
  | true =>
    refine ⟨hsent ▸ prefix_refl _, fun u hu => ?_, ho, by simp, by simp, f, hseen⟩
    cases hu
    rw [append_nil, hsent]

theorem ClientCall.Ledger.ack (h : c.Ledger o sent seen)
    (hpc : c.pc = .read .ack need got) (hlen : (got ++ bs).length = need) :
    ClientCall.Ledger { c with pc := c.req.received .ack (got ++ bs) } o sent
      (seen ++ bs) := by
  have hreads := h.reads
  rw [hpc] at hreads
  obtain ⟨rfl, rfl, -, rfl⟩ := hreads
  have hsent : sent ++ c.req.frame = (c.req.request .fresh).bytes := h.unsent _ (by rw [hpc]; rfl)
  have hword := word_unword hlen
  simp only [Req.received]
  split_ifs with hrefused hclosing hdecline haccept
  · exact ledger_of_loose h.part rfl
  · refine ⟨h.part, fun u hu => ?_, .inl ⟨rfl, ?_⟩⟩
    · cases hu
    · rw [← hword, hclosing]
  · exact ledger_startWrite (by rw [flatten_parts]; exact hsent) rfl
  · exact ledger_of_loose h.part rfl
  · refine ledger_startWrite (by rw [flatten_parts]; exact hsent) ⟨rfl, ?_⟩
    rw [← hword, not_ne_iff.1 haccept]
    rfl

theorem ClientCall.Ledger.answer (h : c.Ledger o sent seen)
    (hpc : c.pc = .read .answer need got) (hlen : (got ++ bs).length = need) :
    ClientCall.Ledger { c with pc := c.req.received .answer (got ++ bs) } o sent
      (seen ++ bs) := by
  have hreads := h.reads
  rw [hpc] at hreads
  obtain ⟨ho, rfl, -, rfl⟩ := hreads
  have hsent : sent = (c.req.request o).bytes := by
    simpa using h.unsent [] (by rw [hpc]; rfl)
  rw [append_assoc, ← word_unword hlen]
  generalize unword (got ++ bs) = w
  simp only [Req.received, unword_word]
  -- the order of the tests is the order of the source: the marker comes first
  by_cases hclosing : w = sessionClosing
  · rw [if_pos hclosing, hclosing]
    refine ⟨h.part, fun u hu => ?_, .inr ⟨ho, rfl⟩⟩
    cases hu
  rw [if_neg hclosing]
  by_cases hrefused : w = proofRefusalHeader
  · rw [if_pos hrefused]
    exact ledger_of_loose h.part rfl
  rw [if_neg hrefused]
  by_cases hone : isOneWay w = true
  · rw [if_pos hone]
    exact ledger_of_loose h.part rfl
  rw [if_neg hone]
  have hsize : answerSize w = lengthOf w := answerSize_of_not_isOneWay (by simpa using hone)
  have hempty : lengthOf w = 0 → ClientCall.Ledger { c with
      pc := .finish (isSession w) (.ret (.reply [])) } o sent (o.intro ++ word w) := by
    intro hzero
    refine ledger_finish ho hsent ⟨w, [], ?_⟩ ?_
    · rw [hsize, hzero]
      rfl
    · rw [Frame.bytes, append_nil]
  split_ifs with hway hlong hlarge
  · exact ledger_of_loose h.part rfl
  · exact hempty (not_ne_iff.1 hlong)
  · exact ledger_of_loose h.part rfl
  · rw [readBody]
    split_ifs with hzero
    · exact hempty hzero
    · refine ⟨h.part, fun u hu => ?_, ho, Nat.pos_of_ne_zero hzero, w, hsize, by simp⟩
      cases hu
      rw [append_nil, hsent]

theorem ClientCall.Ledger.reply (h : c.Ledger o sent seen) {keep : Bool}
    (hpc : c.pc = .read (.reply keep) need got) (hlen : (got ++ bs).length = need) :
    ClientCall.Ledger { c with pc := c.req.received (.reply keep) (got ++ bs) } o sent
      (seen ++ bs) := by
  have hreads := h.reads
  rw [hpc] at hreads
  obtain ⟨ho, -, w, hw, rfl⟩ := hreads
  have hsent : sent = (c.req.request o).bytes := by
    simpa using h.unsent [] (by rw [hpc]; rfl)
  refine ledger_finish ho hsent ⟨w, got ++ bs, hlen.trans hw.symm⟩ ?_
  simp [Frame.bytes]

theorem ClientCall.Ledger.write (h : c.Ledger o sent seen) {p : Bytes}
    {todo : List Bytes} (hpc : c.pc = .write k (p :: todo)) :
    ClientCall.Ledger { c with
      pc := if todo = [] then c.req.afterWrite k else .write k todo } o (sent ++ p) seen := by
  have hreads : (ClientPc.write k []).Reads o seen := by
    have hreads := h.reads
    rw [hpc] at hreads
    cases k <;> exact hreads
  have hsent : sent ++ p ++ (todo.flatten ++ c.req.rest k) = (c.req.request o).bytes := by
    rw [← h.unsent _ (by rw [hpc]; rfl)]
    simp
  split_ifs with hdone
  · refine ledger_afterWrite ?_ hreads
    simpa [hdone] using hsent
  · refine ⟨⟨_, hsent⟩, fun u hu => ?_, ?_⟩
    · cases hu
      exact hsent
    · cases k <;> exact hreads

theorem ClientCall.Ledger.part_write (h : c.Ledger o sent seen) {p : Bytes}
    {todo : List Bytes} (hpc : c.pc = .write k (p :: todo)) (n : ℕ) :
    sent ++ p.take n <+: (c.req.request o).bytes := by
  rw [← h.unsent _ (by rw [hpc]; rfl), prefix_append_right_inj, flatten_cons,
    append_assoc]
  exact (List.take_prefix n p).trans (prefix_append p _)

/-- Until the connection is given back every step keeps the account. -/
theorem ClientCall.Ledger.next {v : PeerView} {act : ClientAct} {m : ClientMove}
    (h : c.Ledger o sent seen) (hm : c.next v act = some m) (hact : ∀ kept, act ≠ .finish kept) :
    m.next.Ledger o (sent ++ m.sent) (seen ++ v.inn.take m.read) := by
  have hreads := h.reads
  cases moves_of_next hm with
  | cancel => simpa [ClientMove.silent] using (⟨h.part, h.unsent, h.reads⟩ :
      ClientCall.Ledger { c with live := false } o sent seen)
  | start single hpc | take pooled hpc | dial hpc | dialFails e hpc he | mark hpc
  | connect hpc | connectFails e hpc he | ret late out hpc =>
    rw [hpc] at hreads
    exact absurd hreads id
  | use fresh hpc =>
    rw [hpc] at hreads
    obtain ⟨ho, rfl⟩ := hreads
    have hsent := h.unsent _ (by rw [hpc]; rfl)
    simp only [ClientMove.silent, append_nil, take_zero]
    cases fresh with
    | true =>
      obtain rfl : o = .fresh := ho
      exact ledger_startWrite (by rw [flatten_parts]; exact hsent) ⟨rfl, rfl⟩
    | false =>
      obtain rfl : o = .pooled := ho
      exact ledger_startWrite (by rw [flatten_parts]; exact hsent) ⟨rfl, rfl⟩
  | useFails fresh e hpc he =>
    simp only [ClientMove.silent, append_nil]
    refine ledger_of_loose h.part (loose_fail ?_)
    rintro rfl
    cases he
  | write k p todo hpc => simpa using h.write hpc
  | writeFails k p todo n e hpc he =>
    refine ledger_of_loose (h.part_write hpc n) (loose_writeFailed ?_)
    rintro rfl
    cases he
  | writeCheck k todo e hpc he =>
    simp only [ClientMove.silent, append_nil]
    exact ledger_of_loose h.part (loose_writeFailed (ne_noSession_of_check he))
  | read k need n got err hpc hn hinn hpos hwhole =>
    simp only [append_nil]
    have hlen : got.length < need → (got ++ v.inn.take n).length = need := fun hgot => by
      rw [length_append, length_take_of_le hinn] at hwhole ⊢
      omega
    rw [hpc] at hreads
    cases k with
    | ack => exact h.ack hpc (hlen hreads.2.2.1)
    | answer => exact h.answer hpc (hlen hreads.2.2.1)
    | reply keep => exact h.reply hpc (hlen hreads.2.1)
    | _ => exact ledger_of_loose h.part (loose_received c.req (by simp))
  | readMore k need n got hpc hn hinn hpos hpart =>
    simpa using h.readMore hpc hpart
  | readFails k need n got e hpc hn hinn he hpart =>
    simp only [append_nil]
    refine h.readFails hpc ?_ _
    rintro rfl
    cases he
  | readCheck k need n got e hpc hn hinn he =>
    simp only [append_nil]
    exact h.readFails hpc (ne_noSession_of_check he) _
  | finish kept keep next hpc hkept => exact absurd rfl (hact kept)

def Origin.act : Origin → ClientAct
  | .fresh => .dial none
  | .pooled => .take true
  | .plain => .connect none

def ClientPc.between : ClientPc → Bool
  | .start | .take | .dial | .mark | .connect => true
  | _ => false

def ClientPc.free : ClientPc → Bool
  | .ret _ | .done _ => true
  | pc => pc.between

theorem ClientCall.Ledger.not_between (h : c.Ledger o sent seen) : c.pc.between = false := by
  have hreads := h.reads
  cases hpc : c.pc with
  | start | take | dial | mark | connect =>
    rw [hpc] at hreads
    exact absurd hreads id
  | _ => rfl

theorem ledger_act {v : PeerView} {m : ClientMove} (hm : c.next v o.act = some m) :
    m.next.Ledger o [] [] ∧ c.pc.between = true := by
  cases o with
  | fresh =>
    cases moves_of_next hm with
    | dial hpc =>
      refine ⟨⟨List.nil_prefix, fun u hu => ?_, rfl, rfl⟩, by rw [hpc]; rfl⟩
      cases hu
      rfl
  | pooled =>
    cases moves_of_next hm with
    | take pooled hpc =>
      refine ⟨⟨List.nil_prefix, fun u hu => ?_, rfl, rfl⟩, by rw [hpc]; rfl⟩
      cases hu
      rfl
  | plain =>
    cases moves_of_next hm with
    | connect hpc =>
      refine ⟨ledger_startWrite ?_ rfl, by rw [hpc]; rfl⟩
      rw [flatten_parts]
      rfl

theorem next_free {v : PeerView} {act : ClientAct} {m : ClientMove}
    (hm : c.next v act = some m) (hfree : c.pc.free = true) (hact : act.connects = false) :
    m.next.pc.free = true ∧ (m.next.pc.between = true → c.pc.between = true) := by
  cases moves_of_next hm with
  | cancel => exact ⟨hfree, id⟩
  | start single hpc =>
    refine ⟨?_, fun _ => by rw [hpc]; rfl⟩
    cases single <;> rfl
  | take pooled hpc =>
    cases pooled with
    | true => cases hact
    | false => exact ⟨rfl, fun _ => by rw [hpc]; rfl⟩
  | dial hpc | connect hpc => cases hact
  | dialFails e hpc he | connectFails e hpc he | ret late out hpc =>
    exact ⟨rfl, fun hno => by cases hno⟩
  | mark hpc => exact ⟨rfl, fun _ => by rw [hpc]; rfl⟩
  | use fresh hpc | useFails fresh e hpc he | write k p todo hpc
  | writeFails k p todo n e hpc he | writeCheck k todo e hpc he
  | read k need n got err hpc hn hinn hpos hwhole
  | readMore k need n got hpc hn hinn hpos hpart
  | readFails k need n got e hpc hn hinn he hpart | readCheck k need n got e hpc hn hinn he
  | finish kept keep next hpc hkept =>
    rw [hpc] at hfree
    cases hfree

theorem resume_free (c : ClientCall) (next : Next) : (c.resume next).pc.free = true ∧
    ((c.resume next).pc.between = true → next = .retry ∨ next = .ret (.error .noSession)) := by
  unfold ClientCall.resume
  split
  · split_ifs
    · exact ⟨rfl, fun _ => .inl rfl⟩
    · exact ⟨rfl, fun _ => .inl rfl⟩
  · exact ⟨rfl, fun _ => .inr rfl⟩
  · exact ⟨rfl, fun hno => by cases hno⟩

end Step

end Listen
