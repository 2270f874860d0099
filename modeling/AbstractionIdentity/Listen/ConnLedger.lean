import AbstractionIdentity.Listen.Closing
import AbstractionIdentity.Listen.EndToEnd

/-!
# The account of a connection between clients and server

`Conn.Ledger` joins the two sides: what arrived is a part of what was sent, what was sent a part of
the requests of its calls, and in the pool every request is answered. So a call that gives up a
connection to send its request again leaves it dead (`Use.retry_dead`, `Use.noSession_dead`).
-/

namespace Listen

open Text Stream List

def Conn.Dead (x : Conn) (i : ℕ) : Prop := Listen.Dead (frameLimit x.maxFrame) x.serve i

structure Conn.Ledger (x : Conn) : Prop where
  serve : x.serve.Ledger
  arrived : x.serve.taken ++ x.serve.inn <+: x.sent
  complete : x.serve.lost = false → x.serve.hangup = false →
    x.serve.taken ++ x.serve.inn = x.sent
  seen : x.seen ≤ x.serve.out.length
  part : x.sent <+: flat (x.uses.map Prod.snd)
  idle : x.holder = .pool → x.sent = flat (x.uses.map Prod.snd) ∧
    ∃ ts : List Answer, ts.length = x.uses.length ∧
      x.serve.out.take x.seen = flat (acceptAnswer :: ts)

def Origin.Found (prev : List (ℕ × Request)) (base : Bytes) : Origin → Prop
  | .pooled => ∃ ts : List Answer, ts.length = prev.length ∧ base = flat (acceptAnswer :: ts)
  | _ => prev = [] ∧ base = []

structure Conn.Use (x : Conn) (k : ℕ) (c : ClientCall) (o : Origin)
    (prev : List (ℕ × Request)) (base sent seen : Bytes) : Prop where
  uses : x.uses = prev ++ [(k, c.req.request o)]
  wrote : x.sent = flat (prev.map Prod.snd) ++ sent
  read : x.serve.out.take x.seen = base ++ seen
  found : o.Found prev base
  ledger : c.Ledger o sent seen
  silent : c.pc = .fail .noSession → c.req.frame = [] → x.Dead prev.length

def Conn.Held (x : Conn) (k : ℕ) (c : ClientCall) : Prop :=
  ∃ o prev base sent seen, x.Use k c o prev base sent seen

section Serve

variable {x : Conn} {t : Serve} {n : ℕ} {r : Bytes}

theorem Conn.Ledger.passes (h : x.Ledger) (hpass : x.serve.Passes t n r) (ht : t.Ledger) :
    Conn.Ledger { x with serve := t } where
  serve := ht
  arrived := hpass.stream.symm ▸ h.arrived
  complete := fun hlost hup => by
    refine hpass.stream.trans (h.complete ?_ ?_)
    · by_contra hs
      rw [(hpass.lost (by simpa using hs)).1] at hlost
      cases hlost
    · by_contra hs
      rw [hpass.hangup (by simpa using hs)] at hup
      cases hup
  seen := by
    rw [hpass.out, length_append]
    exact h.seen.trans (Nat.le_add_right _ _)
  part := h.part
  idle := fun hpool => by
    rw [hpass.out, take_append_of_le_length h.seen]
    exact h.idle hpool

theorem Conn.Held.passes {k : ℕ} {c : ClientCall} (h : x.Held k c) (hx : x.Ledger)
    (hpass : x.serve.Passes t n r) (hdead : ∀ i, x.Dead i → Conn.Dead { x with serve := t } i) :
    Conn.Held { x with serve := t } k c := by
  obtain ⟨o, prev, base, sent, seen, h⟩ := h
  refine ⟨o, prev, base, sent, seen, h.uses, h.wrote, ?_, h.found, h.ledger, ?_⟩
  · rw [hpass.out, take_append_of_le_length hx.seen]
    exact h.read
  · exact fun hpc hempty => hdead _ (h.silent hpc hempty)

theorem passes_close (s : Serve) : s.Passes { s with hangup := true } 0 [] :=
  passes_silent rfl rfl rfl id fun _ => rfl

theorem close_step (x : Conn) :
    serveStep (frameLimit x.maxFrame) x.serve .hangup = some x.close.serve := rfl

theorem Conn.Dead.close {i : ℕ} (h : x.Dead i) : x.close.Dead i := Listen.Dead.step h (close_step x)

theorem Conn.Ledger.close (h : x.Ledger) : x.close.Ledger := by
  have hserve := h.serve.step (frameLimit_lt x.maxFrame) (close_step x)
  have hclosed := h.passes (passes_close x.serve) hserve
  exact ⟨hclosed.serve, hclosed.arrived, hclosed.complete, hclosed.seen, hclosed.part,
    fun hpool => by cases hpool⟩

theorem deliver_eq (limit : ℕ) (s : Serve) (bs : Bytes) :
    s.deliver bs = s ∧ (s.lost = true ∨ s.hangup = true) ∨
      serveStep limit s (.send bs) = some (s.deliver bs) := by
  rw [Serve.deliver, serveStep]
  split_ifs with hgone
  · refine .inl ⟨rfl, ?_⟩
    rw [Bool.or_eq_true] at hgone
    exact hgone.symm
  · exact .inr rfl

theorem deliver_out (s : Serve) (bs : Bytes) : (s.deliver bs).out = s.out := by
  rw [Serve.deliver]
  split_ifs <;> rfl

theorem Conn.Dead.deliver {i : ℕ} (h : x.Dead i) (bs : Bytes) :
    Listen.Dead (frameLimit x.maxFrame) (x.serve.deliver bs) i := by
  rcases deliver_eq (frameLimit x.maxFrame) x.serve bs with ⟨hsame, -⟩ | hstep
  · rw [hsame]
    exact h
  · exact Listen.Dead.step h hstep

theorem Conn.Ledger.client (h : x.Ledger) {bs : Bytes} {n : ℕ}
    (hbs : x.sent ++ bs <+: flat (x.uses.map Prod.snd)) (hn : x.seen + n ≤ x.serve.out.length)
    (hheld : x.holder ≠ .pool) :
    Conn.Ledger { x with
      serve := x.serve.deliver bs, sent := x.sent ++ bs, seen := x.seen + n } where
  serve := by
    rcases deliver_eq (frameLimit x.maxFrame) x.serve bs with ⟨hsame, -⟩ | hstep
    · exact hsame.symm ▸ h.serve
    · exact h.serve.step (frameLimit_lt _) hstep
  arrived := by
    rw [Serve.deliver]
    split_ifs with hgone
    · exact h.arrived.trans (prefix_append _ _)
    · rw [Bool.or_eq_true, not_or, Bool.not_eq_true, Bool.not_eq_true] at hgone
      have hall := h.complete hgone.2 hgone.1
      have hmore : x.serve.taken ++ (x.serve.inn ++ bs) = x.sent ++ bs := by
        rw [← append_assoc, hall]
      exact hmore ▸ prefix_refl _
  complete := by
    rw [Serve.deliver]
    split_ifs with hgone
    · intro hlost hup
      rw [hlost, hup] at hgone
      cases hgone
    · intro hlost hup
      rw [← append_assoc, h.complete hlost hup]
  seen := by
    rw [deliver_out]
    exact hn
  part := hbs
  idle := fun hpool => absurd hpool hheld

end Serve

section Use

variable {x : Conn} {k : ℕ} {c : ClientCall} {o : Origin} {prev : List (ℕ × Request)}
  {base sent seen : Bytes}

theorem Conn.Use.retry_dead (h : x.Use k c o prev base sent seen) (hx : x.Ledger)
    (hpc : c.pc = .finish false .retry) : x.Dead prev.length := by
  have hreads := h.ledger.reads
  rw [hpc] at hreads
  have hout : base ++ seen <+: x.serve.out := h.read ▸ take_prefix _ _
  rcases hreads with ⟨rfl, rfl⟩ | ⟨ho, rfl⟩
  · -- the client would retry here too, but no server begins with the marker
    obtain ⟨-, rfl⟩ := h.found
    exact absurd hout hx.serve.first_ne_closing
  · have hmarker : ∀ ts : List Answer, ts.length = prev.length →
        base ++ o.intro = flat (acceptAnswer :: ts) → x.Dead prev.length := by
      intro ts hts hbase
      rw [← hts]
      apply dead_of_marker hx.serve
      rw [← append_assoc, hbase] at hout
      simpa [Frame.bytes, closingAnswer] using hout
    cases o with
    | plain => exact absurd rfl ho
    | fresh =>
      obtain ⟨rfl, rfl⟩ := h.found
      exact hmarker [] rfl (by simp [Origin.intro, Frame.bytes, acceptAnswer])
    | pooled =>
      obtain ⟨ts, hts, rfl⟩ := h.found
      exact hmarker ts hts (append_nil _)

theorem not_requested_of_head {r : Request} {bs : Bytes} (hbs : bs <+: word r.head)
    (hbody : r.body ≠ []) (frame : Bytes) : ¬ Requested bs 0 frame := by
  rintro ⟨rs, g, hrs, -, hread⟩
  obtain rfl := length_eq_zero_iff.1 hrs
  have hpart : word r.head <+: r.bytes := ⟨r.body, rfl⟩
  have hne : word r.head ≠ r.bytes := fun heq => hbody (by simpa [Frame.bytes] using heq)
  refine incomplete_of_part hpart hne g (List.IsPrefix.trans ?_ hbs)
  simpa using hread

theorem Conn.Use.noSession_dead (h : x.Use k c o prev base sent seen) (hx : x.Ledger)
    (hpc : c.pc = .fail .noSession) : x.close.Dead prev.length := by
  by_cases hempty : c.req.frame = []
  · exact (h.silent hpc hempty).close
  have hreads := h.ledger.reads
  have hunsent := h.ledger.unsent c.req.frame (by rw [hpc]; rfl)
  rw [hpc] at hreads
  obtain rfl : o = .fresh := hreads rfl
  obtain ⟨rfl, rfl⟩ := h.found
  have hsent : x.sent = word (c.req.request .fresh).head := by
    rw [h.wrote]
    exact append_cancel_right hunsent
  -- the body is missing, and after the close it cannot follow
  have hledger := hx.serve.step (frameLimit_lt x.maxFrame) (close_step x)
  refine dead_of_short (frameLimit_lt _) hledger rfl fun frame => ?_
  exact not_requested_of_head (hsent ▸ hx.arrived) hempty frame

theorem Conn.Use.resend_dead (h : x.Use k c o prev base sent seen) (hx : x.Ledger)
    {keep : Bool} {next : Next} (hpc : c.pc = .finish keep next)
    (hnext : next = .retry ∨ next = .ret (.error .noSession)) :
    keep = false ∧ x.close.Dead prev.length := by
  cases keep with
  | true =>
    have hreads := h.ledger.reads
    rw [hpc] at hreads
    rcases hnext with rfl | rfl
    · exact absurd rfl hreads.2.1
    · exact absurd rfl hreads.2.2.1
  | false =>
    rcases hnext with rfl | rfl
    · exact ⟨rfl, (h.retry_dead hx hpc).close⟩
    · exact ⟨rfl, h.noSession_dead hx hpc⟩

theorem Conn.Use.keeps (h : x.Use k c o prev base sent seen) (hx : x.Ledger) {next : Next}
    (hpc : c.pc = .finish true next) : Conn.Ledger { x with holder := .pool } := by
  have hreads := h.ledger.reads
  have hunsent := h.ledger.unsent [] (by rw [hpc]; rfl)
  rw [hpc] at hreads
  obtain ⟨ho, -, -, f, rfl⟩ := hreads
  refine ⟨hx.serve, hx.arrived, hx.complete, hx.seen, hx.part, fun _ => ⟨?_, ?_⟩⟩
  · rw [append_nil] at hunsent
    rw [h.wrote, h.uses, hunsent]
    simp
  · rw [h.read, h.uses]
    cases o with
    | plain => exact absurd rfl ho
    | fresh =>
      obtain ⟨rfl, rfl⟩ := h.found
      exact ⟨[f], rfl, by simp [Origin.intro, Frame.bytes, acceptAnswer]⟩
    | pooled =>
      obtain ⟨ts, hts, rfl⟩ := h.found
      exact ⟨ts ++ [f], by simp [hts], by simp [Origin.intro]⟩

theorem Conn.Ledger.attach (hx : x.Ledger) (k : ℕ) (y : CallSlot) (o : Origin) :
    (x.attach k y o).Ledger := by
  refine ⟨hx.serve, hx.arrived, hx.complete, hx.seen, ?_, fun hpool => by cases hpool⟩
  apply hx.part.trans
  simp [Conn.attach]

theorem held_attach {y : CallSlot} (hsent : x.sent = flat (x.uses.map Prod.snd))
    (hfound : o.Found x.uses (x.serve.out.take x.seen)) (hreq : c.req = y.call.req)
    (hledger : c.Ledger o [] []) : (x.attach k y o).Held k c := by
  refine ⟨o, x.uses, x.serve.out.take x.seen, [], [], ?_, ?_, (append_nil _).symm,
    hfound, hledger, fun hpc hempty => ?_⟩
  · rw [hreq]
    rfl
  · rw [append_nil]
    exact hsent
  · have hreads := hledger.reads
    have hunsent := hledger.unsent c.req.frame (by rw [hpc]; rfl)
    rw [hpc] at hreads
    obtain rfl : o = .fresh := hreads rfl
    rw [hempty] at hunsent
    cases hunsent

/-- The answer to an opening of an empty frame is awaited and nothing of it was
counted, with a live context. -/
def ClientCall.exposed (c : ClientCall) : Bool :=
  c.live && c.req.frame = [] && match c.pc with
    | .read .ack _ [] => true
    | _ => false

/-- The step is none by which the call concludes from its own side that there is no session, when
its request may already be served. -/
def ClientCall.opensSafely (c : ClientCall) : ClientAct → Bool
  | .readCheck _ _ => !c.exposed
  | .read 0 (some .other) => !c.exposed
  | _ => true

theorem not_low_of_session {w : UInt32} (hw : isSession w = true) {bs : Bytes}
    (h : bs <+: word w) : ¬ Low bs := by
  rintro ⟨b, hb, hlow⟩
  obtain ⟨t, ht⟩ := h
  have hhead : (word w).head? = some b := by
    rw [← ht, List.head?_append, hb]
    rfl
  rw [word, List.head?_cons, Option.some.injEq] at hhead
  rw [isSession_iff] at hw
  have hlt := w.toNat_lt
  have h128 : (128 : UInt8).toNat = 128 := rfl
  rw [← hhead, UInt8.lt_iff_toNat_lt, UInt8.toNat_ofNat'] at hlow
  omega

theorem Conn.Use.silent_dead (h : x.Use k c o prev base sent seen) (hx : x.Ledger)
    {need : ℕ} (hpc : c.pc = .read .ack need []) (hended : x.view.ended = true)
    (hinn : x.view.inn = []) : x.Dead prev.length := by
  have hreads := h.ledger.reads
  have hunsent := h.ledger.unsent c.req.frame (by rw [hpc]; rfl)
  rw [hpc] at hreads
  obtain ⟨rfl, -, -, rfl⟩ := hreads
  obtain ⟨rfl, rfl⟩ := h.found
  have hout : x.serve.out = [] := by
    rw [← take_append_drop x.seen x.serve.out, h.read]
    exact hinn
  have hend : x.serve.pc = .ended ∨ x.serve.lost = true := by
    simpa [Conn.view] using hended
  have hsent : x.sent = word c.req.flags := by
    rw [h.wrote]
    exact append_cancel_right hunsent
  refine dead_of_silent (frameLimit_lt _) hx.serve hout hend ?_ _
  exact not_low_of_session (isSession_mkHeader c.req.length_lt) (hsent ▸ hx.arrived)

theorem next_read_le {v : PeerView} {act : ClientAct} {m : ClientMove}
    (hm : c.next v act = some m) : m.read ≤ v.inn.length := by
  cases moves_of_next hm <;> first | exact Nat.zero_le _ | assumption

theorem next_req {v : PeerView} {act : ClientAct} {m : ClientMove}
    (hm : c.next v act = some m) : m.next.req = c.req := by
  cases moves_of_next hm with
  | finish kept keep next hpc hkept =>
    simp only [ClientMove.silent, ClientCall.resume]
    repeat' split
    all_goals rfl
  | _ => rfl

theorem Conn.Use.next (h : x.Use k c o prev base sent seen) (hx : x.Ledger)
    {act : ClientAct} {m : ClientMove} (hm : c.next x.view act = some m)
    (hact : ∀ kept, act ≠ .finish kept) (hsafe : c.opensSafely act = true) :
    Conn.Use { x with
      serve := x.serve.deliver m.sent, sent := x.sent ++ m.sent, seen := x.seen + m.read }
      k m.next o prev base (sent ++ m.sent) (seen ++ x.view.inn.take m.read) where
  uses := by
    rw [next_req hm]
    exact h.uses
  wrote := by
    rw [h.wrote, append_assoc]
  read := by
    rw [deliver_out, take_add, h.read, append_assoc]
    rfl
  found := h.found
  ledger := h.ledger.next hm hact
  silent := fun hpc hempty => by
    rw [next_req hm] at hempty
    suffices hdead : x.Dead prev.length from hdead.deliver m.sent
    by_cases hbefore : c.pc = .fail .noSession
    · exact h.silent hbefore hempty
    obtain ⟨⟨need, hack⟩, hlive, hread | ⟨n, e, rfl⟩⟩ := next_noSession hm hpc hbefore
    · obtain ⟨e, rfl, htimeout, hallowed⟩ := hread
      cases e with
      | eof | closedPeer =>
        -- both mean that the stream of the server has ended before its first byte
        simp only [transportAllowed, Bool.and_eq_true] at hallowed
        have hinn := length_eq_zero_iff.1 (of_decide_eq_true hallowed.2).symm
        exact h.silent_dead hx hack hallowed.1 hinn
      | closed => simp [transportAllowed, hlive] at hallowed
      | timeout => exact absurd rfl htimeout
      | other => simp [ClientCall.opensSafely, ClientCall.exposed, hlive, hempty, hack] at hsafe
      | _ => cases hallowed
    · simp [ClientCall.opensSafely, ClientCall.exposed, hlive, hempty, hack] at hsafe

end Use

end Listen
