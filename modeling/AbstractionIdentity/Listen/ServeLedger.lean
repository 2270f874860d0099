import AbstractionIdentity.Listen.CallLedger
import AbstractionIdentity.Listen.Connection

/-!
# The account of one connection

`Serve.Ledger` says, for every place of the serving goroutine, which bytes of the
connection it has read and written. Between two requests these are whole
exchanges and nothing else (`Serve.At`); within a request they are whole
exchanges and the account of the call. It also says what the log of dispatched
frames means: the frame with number `i` is the body of request `i` of the stream,
no number occurs twice, and something was written to the client before, unless
the client never asked for a session.

Every step keeps the ledger (`Ledger.step`), so it holds in every state a
connection reaches (`ledger_of_run`).
-/

namespace Listen

open Text Stream Transition List Option Serve ServePc

/-- The stream `out` has no closing marker among its answers. -/
def Unclosed (out : Bytes) : Prop :=
  ∃ (fs : List Answer) (r : Bytes),
    (∀ f ∈ fs, f.head ≠ sessionClosing) ∧ AnswerPart r ∧ out = flat fs ++ r

variable {r : Bytes} {s : Serve}

theorem unclosed_of_part (h : AnswerPart r) : Unclosed r := ⟨[], r, by simp, h, rfl⟩

theorem unclosed_word_append {w : UInt32} (hsize : answerSize w = 0)
    (hw : w ≠ sessionClosing) (hr : AnswerPart r) : Unclosed (word w ++ r) := by
  refine ⟨[⟨w, [], hsize.symm⟩], r, ?_, hr, by simp [Frame.bytes]⟩
  intro f hf
  rw [mem_singleton] at hf
  rw [hf]
  exact hw

theorem unclosed_answers_append (exs : List Exchange) (hr : AnswerPart r) :
    Unclosed (answers exs ++ r) := by
  refine ⟨acceptAnswer :: exs.map Exchange.answer, r, ?_, hr, rfl⟩
  intro f hf
  rcases mem_cons.1 hf with rfl | hf
  · decide
  · obtain ⟨e, -, rfl⟩ := mem_map.1 hf
    exact e.answer_ne_closing

/-- Nothing that is read from such a stream is the marker. -/
theorem Unclosed.not_closing {out : Bytes} (h : Unclosed out) (ts : List Answer) :
    ¬ flat (ts ++ [closingAnswer]) <+: out := by
  obtain ⟨fs, r, hfs, ⟨g, hg, hr⟩, rfl⟩ := h
  intro hread
  have hmem : closingAnswer ∈ fs ++ [g] := by
    have hlast : closingAnswer ∈ ts ++ [closingAnswer] := by simp
    by_cases hwhole : r = g.bytes
    · have hread' : flat (ts ++ [closingAnswer]) <+: flat (fs ++ [g]) ++ [] := by
        simpa [hwhole] using hread
      exact (frames_of_flat incomplete_nil hread').subset hlast
    · have hpart := frames_of_flat (incomplete_of_part hr hwhole) hread
      exact mem_append_left _ (hpart.subset hlast)
  rcases mem_append.1 hmem with hmem | hmem
  · exact hfs closingAnswer hmem rfl
  · rw [mem_singleton] at hmem
    exact hg (hmem ▸ rfl)

/-- The client began with a word without the session bit. -/
def Low (s : Bytes) : Prop := ∃ b, s.head? = some b ∧ b < 128

theorem Low.append {s : Bytes} (h : Low s) (t : Bytes) : Low (s ++ t) := by
  obtain ⟨b, hb, hlow⟩ := h
  refine ⟨b, ?_, hlow⟩
  rw [List.head?_append, hb]
  rfl

/-- Request `i` of the stream has the body `frame`. -/
def Requested (taken : Bytes) (i : ℕ) (frame : Bytes) : Prop :=
  ∃ (rs : List Request) (r : Request),
    rs.length = i ∧ r.body = frame ∧ flat (rs ++ [r]) <+: taken

theorem Requested.append {taken frame : Bytes} {i : ℕ} (h : Requested taken i frame)
    (bs : Bytes) : Requested (taken ++ bs) i frame := by
  obtain ⟨rs, r, hi, hr, hread⟩ := h
  exact ⟨rs, r, hi, hr, hread.trans (prefix_append _ _)⟩

/-- Whole exchanges, and `h` of the next request. -/
def Serve.At (s : Serve) (h : Bytes) : Prop :=
  ∃ exs : List Exchange,
    s.taken = requests exs ++ h ∧ s.out = answers exs ∧ s.served = exs.length

/-- Nothing but `h` of the first word was read, and nothing written. -/
def Serve.Opening (s : Serve) (h : Bytes) : Prop := s.taken = h ∧ s.out = [] ∧ s.served = 0

/-- What was written before a single exchange: nothing, to a client that did not ask for a session,
or the word that declines one. -/
def Serve.Introduced (s : Serve) : Prop :=
  s.served = 0 ∧ (s.out = [] ∧ Low s.taken ∨ s.out = word sessionDecline ∨
    s.out = word sessionUnsupported)

def Serve.PlainPlace (s : Serve) : PlainPc → Prop
  | .header h => s.Opening h ∧ h.length < 4
  | .answer w => s.Opening (word w)
  | .bind n => s.Introduced ∧ ∃ w, s.taken = word w ∧ n = lengthOf w
  | .body n frame => s.Introduced ∧ ∃ w, s.taken = word w ++ frame ∧ n = lengthOf w ∧
      frame.length < n
  | .ready frame => s.Introduced ∧ ∃ w, s.taken = word w ++ frame ∧
      frame.length = lengthOf w
  | .handling replied => s.served = 0 ∧ (replied = false → s.Introduced) ∧ Unclosed s.out

/-- What the place of the goroutine says about the bytes of the connection. -/
def Serve.Place (s : Serve) : Prop :=
  match s.pc with
  | .first h => s.Opening h ∧ h.length < 4
  | .admission w | .decline w | .accept w => s.Opening (word w)
  | .bind w | .top w | .deliver w | .header w => s.At (word w)
  | .wait a => ∃ exs cin cout, s.taken = requests exs ++ (word a.call.head ++ cin) ∧
      s.out = answers exs ++ cout ∧ s.served = exs.length + 1 ∧ a.Ledger cin cout
  | .rest h | .resume h => s.At h ∧ h.length < 4
  | .woke h err => s.At h ∧ if err = none then h.length = 4 else h.length < 4
  | .marker => s.At []
  | .plain p => s.PlainPlace p
  | .ended => if s.marked then
      ∃ exs c, s.taken = requests exs ∧ s.out = answers exs ++ c ∧
        s.served = exs.length ∧ c <+: word sessionClosing
      else Unclosed s.out

/-- The number of requests whose frame may have been handed out. -/
def Serve.handed (s : Serve) : ℕ :=
  match s.pc with
  | .wait a => if a.recv = .returned then s.served else s.served - 1
  | .plain (.handling _) => 1
  | _ => s.served

/-- The invariant of a connection: its bytes are those of the place it is at, the marker is the last
thing written, and the dispatched frames are requests of the stream, each once and none before
something was written to a client that asked for a session. -/
structure Serve.Ledger (s : Serve) : Prop where
  place : s.Place
  marked : s.marked = true → s.pc = .ended
  nodup : (s.dispatched.map Prod.fst).Nodup
  requested : ∀ p ∈ s.dispatched, Requested s.taken p.1 p.2
  below : s.pc ≠ .ended ∨ s.marked = true → ∀ p ∈ s.dispatched, p.1 < s.handed
  spoken : s.dispatched ≠ [] → s.out ≠ [] ∨ Low s.taken

theorem ledger_start (sessions : Bool) : (Serve.start sessions).Ledger where
  place := by cases sessions <;> exact ⟨⟨rfl, rfl, rfl⟩, by decide⟩
  marked := fun h => by cases h
  nodup := nodup_nil
  requested := fun p hp => by cases hp
  below := fun _ p hp => by cases hp
  spoken := fun h => absurd rfl h

theorem Serve.Introduced.unclosed (h : s.Introduced) (hr : AnswerPart r) : Unclosed
    (s.out ++ r) := by
  obtain ⟨-, ⟨hout, -⟩ | hout | hout⟩ := h
  · rw [hout, nil_append]
    exact unclosed_of_part hr
  · rw [hout]
    exact unclosed_word_append (by decide) (by decide) hr
  · rw [hout]
    exact unclosed_word_append (by decide) (by decide) hr

theorem Serve.Ledger.unclosed (h : s.Ledger) (hpc : s.pc ≠ .ended) : Unclosed s.out := by
  have hat : ∀ g, s.At g → Unclosed s.out := by
    rintro g ⟨exs, -, hout, -⟩
    rw [hout]
    simpa using unclosed_answers_append exs answerPart_nil
  have hopen : ∀ g, s.Opening g → Unclosed s.out := by
    rintro g ⟨-, hout, -⟩
    rw [hout]
    exact unclosed_of_part answerPart_nil
  have hintro : s.Introduced → Unclosed s.out := fun hi => by
    simpa using hi.unclosed answerPart_nil
  have hplace := h.place
  rw [Serve.Place] at hplace
  split at hplace
  · exact hopen _ hplace.1
  · exact hopen _ hplace
  · exact hopen _ hplace
  · exact hopen _ hplace
  · exact hat _ hplace
  · exact hat _ hplace
  · exact hat _ hplace
  · exact hat _ hplace
  · obtain ⟨exs, cin, cout, -, hout, -, hcall⟩ := hplace
    rw [hout]
    exact unclosed_answers_append exs hcall.part
  · exact hat _ hplace.1
  · exact hat _ hplace.1
  · exact hat _ hplace.1
  · exact hat _ hplace
  next p _ =>
    cases p with
    | header h => exact hopen _ hplace.1
    | answer w => exact hopen _ hplace
    | bind n => exact hintro hplace.1
    | body n frame => exact hintro hplace.1
    | ready frame => exact hintro hplace.1
    | handling replied => exact hplace.2.2
  · exact absurd ‹_› hpc

section Step

variable {s t : Serve} {limit : ℕ}

/-- A step that reads `bs`, writes `r` and hands out nothing. -/
theorem Serve.Ledger.keep (h : s.Ledger) (bs r : Bytes) (htaken : t.taken = s.taken ++ bs)
    (hout : t.out = s.out ++ r) (hdispatched : t.dispatched = s.dispatched)
    (hmarked : t.marked = true → t.pc = .ended) (hplace : t.Place)
    (hhanded : t.pc ≠ .ended ∨ t.marked = true →
      (s.pc ≠ .ended ∨ s.marked = true) ∧ s.handed ≤ t.handed) : t.Ledger where
  place := hplace
  marked := hmarked
  nodup := hdispatched ▸ h.nodup
  requested := fun p hp => by
    rw [htaken]
    exact (h.requested p (hdispatched ▸ hp)).append bs
  below := fun ht p hp => by
    obtain ⟨hs, hle⟩ := hhanded ht
    exact (h.below hs p (hdispatched ▸ hp)).trans_le hle
  spoken := fun hne => by
    rw [htaken, hout]
    rcases h.spoken (hdispatched ▸ hne) with hs | hs
    · exact .inl fun hnil => hs (append_eq_nil_iff.1 hnil).1
    · exact .inr (hs.append bs)

/-- Such a step after which the goroutine has ended. -/
theorem Serve.Ledger.ends (h : s.Ledger) (hpc : s.pc ≠ .ended) (bs r : Bytes)
    (htaken : t.taken = s.taken ++ bs) (hout : t.out = s.out ++ r)
    (hdispatched : t.dispatched = s.dispatched) (hmarked : t.marked = s.marked)
    (ht : t.pc = .ended) (hclosed : Unclosed t.out) : t.Ledger := by
  have hno : t.marked = false := by
    rw [hmarked]
    by_contra hm
    exact hpc (h.marked (by simpa using hm))
  refine h.keep bs r htaken hout hdispatched (fun _ => ht) ?_ fun hor => ?_
  · rw [Serve.Place, ht]
    simpa [hno] using hclosed
  · rcases hor with hne | hm
    · exact absurd ht hne
    · rw [hno] at hm
      cases hm

variable {bs g : Bytes} {pc : ServePc} {w : UInt32}

theorem low_word (h : w.toNat < 2 ^ 31) : Low (word w) := by
  refine ⟨_, rfl, ?_⟩
  rw [UInt8.lt_iff_toNat_lt, UInt8.toNat_ofNat']
  have h128 : (128 : UInt8).toNat = 128 := rfl
  omega

theorem lengthOf_of_lt (h : w.toNat < 2 ^ 30) : lengthOf w = w.toNat := by
  rw [lengthOf_eq]
  exact Nat.mod_eq_of_lt h

theorem Serve.Ledger.read_header (h : s.Ledger) (hlimit : limit < 2 ^ 30)
    (hpc : s.pc ≠ .ended) (hhanded : s.handed = 0)
    (htaken : t.taken = s.taken ++ bs) (hout : t.out = s.out)
    (hdispatched : t.dispatched = s.dispatched) (hmarked : t.marked = s.marked)
    (hopening : t.Opening (word w)) (ht : t.pc = plainHeader limit w) :
    t.Ledger := by
  have hno : t.marked = true → t.pc = .ended := fun hm =>
    absurd (h.marked (hmarked ▸ hm)) hpc
  have hbelow : t.pc ≠ .ended ∨ t.marked = true →
      (s.pc ≠ .ended ∨ s.marked = true) ∧ s.handed ≤ t.handed :=
    fun _ => ⟨.inl hpc, by rw [hhanded]; exact Nat.zero_le _⟩
  have hout' : t.out = s.out ++ [] := by rw [hout, append_nil]
  rw [plainHeader] at ht
  split_ifs at ht with hsession hlarge
  · refine h.keep bs [] htaken hout' hdispatched hno ?_ hbelow
    rw [Serve.Place, ht]
    exact hopening
  · apply h.ends hpc bs [] htaken hout' hdispatched hmarked ht
    rw [hopening.2.1]
    exact unclosed_of_part answerPart_nil
  · have hw : w.toNat < 2 ^ 30 := by omega
    refine h.keep bs [] htaken hout' hdispatched hno ?_ hbelow
    rw [Serve.Place, ht]
    refine ⟨⟨hopening.2.2, .inl ⟨hopening.2.1, ?_⟩⟩, w, hopening.1, ?_⟩
    · rw [hopening.1]
      exact low_word (by omega)
    · exact (lengthOf_of_lt hw).symm

theorem Serve.Ledger.moves (h : s.Ledger) (hpc : s.pc ≠ .ended) (bs r : Bytes)
    (htaken : t.taken = s.taken ++ bs) (hout : t.out = s.out ++ r)
    (hdispatched : t.dispatched = s.dispatched) (hmarked : t.marked = s.marked)
    (hplace : t.Place) (hhanded : s.handed ≤ t.handed) : t.Ledger := by
  refine h.keep bs r htaken hout hdispatched (fun hm => ?_) hplace
    fun _ => ⟨.inl hpc, hhanded⟩
  exact absurd (h.marked (hmarked ▸ hm)) hpc

theorem Serve.At.append (h : s.At g) (htaken : t.taken = s.taken ++ bs)
    (hout : t.out = s.out) (hserved : t.served = s.served) : t.At (g ++ bs) := by
  obtain ⟨exs, ht, ho, hs⟩ := h
  refine ⟨exs, ?_, hout.trans ho, hserved.trans hs⟩
  rw [htaken, ht, append_assoc]

theorem Serve.Opening.append (h : s.Opening g)
    (htaken : t.taken = s.taken ++ bs) (hout : t.out = s.out)
    (hserved : t.served = s.served) : t.Opening (g ++ bs) := by
  obtain ⟨ht, ho, hs⟩ := h
  exact ⟨by rw [htaken, ht], hout.trans ho, hserved.trans hs⟩

section Read

variable {inn bs g : Bytes}

theorem Serve.Ledger.read_first (h : s.Ledger) (hpc : s.pc = .first g)
    (hlen : g.length + bs.length ≤ 4) :
    Serve.Ledger { s with
      inn := inn, taken := s.taken ++ bs, pc := (first g).afterRead limit bs } := by
  have hne : s.pc ≠ .ended := by simp [hpc]
  have hplace := h.place
  rw [Serve.Place, hpc] at hplace
  have hmoves : ∀ pc : ServePc, Serve.Place { s with
      inn := inn, taken := s.taken ++ bs, pc := pc } → s.handed ≤ handed { s with
      inn := inn, taken := s.taken ++ bs, pc := pc } → Serve.Ledger { s with
      inn := inn, taken := s.taken ++ bs, pc := pc } := fun pc hp hh =>
    h.moves hne bs [] rfl (append_nil _).symm rfl rfl hp hh
  have hopening : ∀ pc : ServePc, Serve.Opening { s with
      inn := inn, taken := s.taken ++ bs, pc := pc } (g ++ bs) := fun pc =>
    hplace.1.append rfl rfl rfl
  have hhanded : s.handed = 0 := by simp [handed, hpc, hplace.1.2.2]
  simp only [afterRead]
  split_ifs with h4 hlow hclosing
  · exact hmoves _ ⟨hopening _, h4⟩ (by omega)
  · exact hmoves _ ⟨hopening _, h4⟩ (by omega)
  · exact h.ends hne bs [] rfl (by simp) rfl rfl rfl (h.unclosed hne)
  · refine hmoves _ ?_ (by omega)
    have hword : word (unword (g ++ bs)) = g ++ bs := by
      apply word_unword
      rw [length_append] at h4 ⊢
      omega
    simp only [Serve.Place, hword]
    exact hopening _

theorem Serve.Ledger.read_next (h : s.Ledger) (hpc : s.pc = .rest g ∨ s.pc = .resume g)
    (hlen : g.length + bs.length ≤ 4) :
    Serve.Ledger { s with
      inn := inn, taken := s.taken ++ bs, pc := s.pc.afterRead limit bs } := by
  have hne : s.pc ≠ .ended := by rcases hpc with hpc | hpc <;> simp [hpc]
  have hat : ∀ pc : ServePc, Serve.At { s with
      inn := inn, taken := s.taken ++ bs, pc := pc } (g ++ bs) := by
    have hplace := h.place
    intro pc
    rcases hpc with hpc | hpc <;> rw [Serve.Place, hpc] at hplace <;>
      exact hplace.1.append rfl rfl rfl
  have hhanded : s.handed = s.served := by
    rcases hpc with hpc | hpc <;> simp [handed, hpc]
  have hmoves : ∀ pc : ServePc, Serve.Place { s with
      inn := inn, taken := s.taken ++ bs, pc := pc } → s.served ≤ handed { s with
      inn := inn, taken := s.taken ++ bs, pc := pc } → Serve.Ledger { s with
      inn := inn, taken := s.taken ++ bs, pc := pc } := fun pc hp hh =>
    h.moves hne bs [] rfl (append_nil _).symm rfl rfl hp (hhanded.trans_le hh)
  have hfour : ¬ (g ++ bs).length < 4 → (g ++ bs).length = 4 := by
    intro h4
    rw [length_append] at h4 ⊢
    omega
  rcases hpc with hpc | hpc
  · simp only [hpc, afterRead]
    split_ifs with h4
    · exact hmoves _ ⟨hat _, h4⟩ le_rfl
    · exact hmoves _ ⟨hat _, by simpa using hfour h4⟩ le_rfl
  · simp only [hpc, afterRead]
    split_ifs with h4
    · exact hmoves _ ⟨hat _, h4⟩ le_rfl
    · refine hmoves _ ?_ le_rfl
      simp only [Serve.Place, word_unword (hfour h4)]
      exact hat _

theorem Serve.Ledger.read_plainHeader (h : s.Ledger) (hlimit : limit < 2 ^ 30)
    (hpc : s.pc = .plain (.header g)) (hlen : g.length + bs.length ≤ 4) :
    Serve.Ledger { s with
      inn := inn, taken := s.taken ++ bs,
      pc := (plain (.header g)).afterRead limit bs } := by
  have hne : s.pc ≠ .ended := by simp [hpc]
  have hplace := h.place
  rw [Serve.Place, hpc] at hplace
  have hopening : ∀ pc : ServePc, Serve.Opening { s with
      inn := inn, taken := s.taken ++ bs, pc := pc } (g ++ bs) := fun pc =>
    hplace.1.append rfl rfl rfl
  have hhanded : s.handed = 0 := by simp [handed, hpc, hplace.1.2.2]
  simp only [afterRead]
  split_ifs with h4
  · refine h.moves hne bs [] rfl (append_nil _).symm rfl rfl ⟨hopening _, h4⟩ ?_
    rw [hhanded]
    exact Nat.zero_le _
  · refine h.read_header hlimit hne hhanded rfl rfl rfl rfl ?_ rfl
    rw [word_unword]
    · exact hopening _
    · rw [length_append] at h4 ⊢
      omega

theorem Serve.Ledger.read_plainBody (h : s.Ledger) {n : ℕ}
    (hpc : s.pc = .plain (.body n g)) (hlen : g.length + bs.length ≤ n) :
    Serve.Ledger { s with
      inn := inn, taken := s.taken ++ bs,
      pc := (plain (.body n g)).afterRead limit bs } := by
  have hne : s.pc ≠ .ended := by simp [hpc]
  have hplace := h.place
  rw [Serve.Place, hpc] at hplace
  obtain ⟨⟨hserved, hsaid⟩, w, htaken, hn, hshort⟩ := hplace
  have hhanded : s.handed = 0 := by simp [handed, hpc, hserved]
  have hintro : ∀ pc : ServePc, Serve.Introduced { s with
      inn := inn, taken := s.taken ++ bs, pc := pc } := fun pc =>
    ⟨hserved, hsaid.imp_left fun hs => ⟨hs.1, hs.2.append bs⟩⟩
  have htaken' : s.taken ++ bs = word w ++ (g ++ bs) := by
    rw [htaken, append_assoc]
  simp only [afterRead]
  split_ifs with hmore
  · refine h.moves hne bs [] rfl (append_nil _).symm rfl rfl ?_ (by omega)
    exact ⟨hintro _, w, htaken', hn, hmore⟩
  · refine h.moves hne bs [] rfl (append_nil _).symm rfl rfl ?_ (by omega)
    refine ⟨hintro _, w, htaken', ?_⟩
    rw [length_append] at hmore ⊢
    omega

theorem Serve.Ledger.read (h : s.Ledger) (hlimit : limit < 2 ^ 30) {n : ℕ} (hpos : 0 < n)
    (hwants : n ≤ s.pc.wants) (hinn : n ≤ s.inn.length) :
    Serve.Ledger { s with
      inn := s.inn.drop n, taken := s.taken ++ s.inn.take n,
      pc := s.pc.afterRead limit (s.inn.take n) } := by
  have hlen : (s.inn.take n).length = n := length_take_of_le hinn
  have hplace := h.place
  cases hpc : s.pc with
  | first g =>
    apply h.read_first hpc
    simp only [hpc, wants] at hwants
    split_ifs at hwants with hg
    · rw [hg, hlen, length_nil]
      omega
    · omega
  | rest g =>
    simp only [hpc, wants] at hwants
    rw [← hpc]
    exact h.read_next (.inl hpc) (by omega)
  | resume g =>
    simp only [hpc, wants] at hwants
    rw [← hpc]
    exact h.read_next (.inr hpc) (by omega)
  | plain p =>
    cases p with
      simp only [hpc, wants] at hwants
    | header g =>
      exact h.read_plainHeader hlimit hpc (by omega)
    | body k g =>
      exact h.read_plainBody hpc (by omega)
    | _ =>
      omega
  | _ =>
    simp only [hpc, wants] at hwants
    omega

end Read

theorem Serve.Ledger.gives_up (h : s.Ledger) (hpc : s.pc ≠ .ended) :
    Serve.Ledger { s with pc := .ended } :=
  h.ends hpc [] [] (by simp) (by simp) rfl rfl rfl (h.unclosed hpc)

theorem Serve.Ledger.goes (h : s.Ledger) (hpc : s.pc ≠ .ended) (htaken : t.taken = s.taken)
    (hout : t.out = s.out) (hdispatched : t.dispatched = s.dispatched)
    (hmarked : t.marked = s.marked) (hplace : t.Place) (hhanded : s.handed ≤ t.handed) :
    t.Ledger :=
  h.moves hpc [] [] (by simp [htaken]) (by simp [hout]) hdispatched hmarked hplace hhanded

theorem Serve.Ledger.readFail (h : s.Ledger) {err : ReadErr}
    (hpc : s.pc.afterReadFail err = some pc) : Serve.Ledger { s with pc := pc } := by
  have hne : s.pc ≠ .ended := by
    rintro heq
    rw [heq] at hpc
    cases hpc
  cases hs : s.pc with
  | rest g =>
    rw [hs] at hpc
    cases hpc
    have hplace := h.place
    rw [Serve.Place, hs] at hplace
    refine h.goes hne rfl rfl rfl rfl ⟨hplace.1, by simpa using hplace.2⟩ ?_
    simp [handed, hs]
  | first g | resume g =>
    rw [hs] at hpc
    cases hpc
    exact h.gives_up hne
  | plain p =>
    rw [hs] at hpc
    cases p with
    | header g | body n g =>
      cases hpc
      exact h.gives_up hne
    | _ => cases hpc
  | _ =>
    rw [hs] at hpc
    cases hpc

theorem answerPart_of_word (hsize : answerSize w = 0) (hw : w ≠ sessionClosing)
    {r : Bytes} (hr : r <+: word w) : AnswerPart r :=
  ⟨⟨w, [], hsize.symm⟩, hw, by simpa [Frame.bytes] using hr⟩

/-- A word other than the marker goes out; `pc` is the place after a write that succeeds. -/
theorem Serve.Ledger.write_word (h : s.Ledger) {v : UInt32}
    (hne : s.pc ≠ .ended) (hopening : s.Opening (word v)) (hsize : answerSize w = 0)
    (hw : w ≠ sessionClosing) (hhanded : s.handed = 0) (fault : Option ℕ)
    (hplace : pc ≠ .ended → Serve.Place { s with out := s.out ++ word w, pc := pc }) :
    Serve.Ledger { s with
      out := s.out ++ sent s.lost (word w) fault
      pc := if fault = none then pc else .ended } := by
  have hpart : AnswerPart (sent s.lost (word w) fault) :=
    answerPart_of_word hsize hw (sent_part _ _ _)
  have hends : Serve.Ledger { s with
      out := s.out ++ sent s.lost (word w) fault, pc := .ended } := by
    refine h.ends hne [] _ (by simp) rfl rfl rfl rfl ?_
    simp only [hopening.2.1, nil_append]
    exact unclosed_of_part hpart
  by_cases hgo : fault = none ∧ pc ≠ .ended
  · obtain ⟨rfl, hpc⟩ := hgo
    rw [if_pos rfl]
    exact h.moves hne [] (word w) (by simp) rfl rfl rfl (hplace hpc) (by omega)
  · have hend : (if fault = none then pc else .ended) = ended := by
      split_ifs with hf
      · by_contra hp
        exact hgo ⟨hf, hp⟩
      · rfl
    rw [hend]
    exact hends

theorem Serve.Ledger.write_marker (h : s.Ledger) (hpc : s.pc = .marker) (fault : Option ℕ) :
    Serve.Ledger { s with
      out := s.out ++ sent s.lost (word sessionClosing) fault, pc := .ended,
      marked := true } := by
  have hplace := h.place
  rw [Serve.Place, hpc] at hplace
  obtain ⟨exs, htaken, hout, hserved⟩ := hplace
  refine h.keep [] _ (by simp) rfl rfl (fun _ => rfl) ?_ fun _ => ⟨.inl (by simp [hpc]), ?_⟩
  · refine ⟨exs, _, by simpa using htaken, ?_, hserved, sent_part s.lost _ fault⟩
    simp only [hout]
  · simp [handed, hpc]

theorem plainHeader_masked (limit : ℕ) (w : UInt32) :
    plainHeader limit (mkHeader false false (lengthOf w)) =
      if limit < lengthOf w then .ended else .plain (.bind (lengthOf w)) := by
  have hn : (mkHeader false false (lengthOf w)).toNat = lengthOf w := by
    rw [toNat_mkHeader (lengthOf_lt w)]
    simp
  have hflag : isSession (mkHeader false false (lengthOf w)) = false :=
    isSession_mkHeader (lengthOf_lt w)
  rw [plainHeader, hn, hflag]
  simp

theorem Serve.Opening.not_granted {v : UInt32} (h : s.Opening (word v))
    (hw : w = sessionDecline ∨ w = sessionUnsupported)
    (hpc : pc = if limit < lengthOf v then .ended else .plain (.bind (lengthOf v)))
    (hne : pc ≠ .ended) : Serve.Place { s with out := s.out ++ word w, pc := pc } := by
  have hbind : pc = .plain (.bind (lengthOf v)) := by
    split_ifs at hpc
    · exact absurd hpc hne
    · exact hpc
  subst hbind
  refine ⟨⟨h.2.2, .inr ?_⟩, v, h.1, rfl⟩
  simp only [h.2.1, nil_append]
  rcases hw with rfl | rfl
  · exact .inl rfl
  · exact .inr rfl

theorem Serve.Ledger.write (h : s.Ledger)
    (hwrites : s.pc.writes limit = some (w, pc)) (fault : Option ℕ) :
    Serve.Ledger { s with
      out := s.out ++ sent s.lost (word w) fault
      pc := if fault = none then pc else .ended
      marked := s.marked || s.pc = .marker } := by
  have hne : s.pc ≠ .ended := by
    intro heq
    rw [heq] at hwrites
    cases hwrites
  have hplace := h.place
  have hno : s.pc ≠ .marker → (s.marked || decide (s.pc = .marker)) = s.marked := by
    intro hm
    simp [hm]
  cases hpc : s.pc with
  | decline v =>
    rw [Serve.Place, hpc] at hplace
    rw [← hpc, hno (by simp [hpc])]
    rw [hpc] at hwrites
    cases hwrites
    exact h.write_word hne hplace (by decide) (by decide)
      (by simp [handed, hpc, hplace.2.2]) fault
      (hplace.not_granted (.inl rfl) (plainHeader_masked limit v))
  | accept v =>
    rw [Serve.Place, hpc] at hplace
    rw [← hpc, hno (by simp [hpc])]
    rw [hpc] at hwrites
    cases hwrites
    refine h.write_word hne hplace (by decide) (by decide)
      (by simp [handed, hpc, hplace.2.2]) fault fun _ => ⟨[], ?_, ?_, hplace.2.2⟩
    · simpa [requests] using hplace.1
    · simp [hplace.2.1, answers, acceptAnswer, Frame.bytes]
  | marker =>
    rw [hpc] at hwrites
    cases hwrites
    simpa using h.write_marker hpc fault
  | plain p =>
    cases p with
    | answer v =>
      rw [Serve.Place, hpc] at hplace
      rw [← hpc, hno (by simp [hpc])]
      rw [hpc] at hwrites
      cases hwrites
      exact h.write_word hne hplace (by decide) (by decide)
        (by simp [handed, hpc, hplace.2.2]) fault
        (hplace.not_granted (.inr rfl) rfl)
    | _ =>
      rw [hpc] at hwrites
      cases hwrites
  | _ =>
    rw [hpc] at hwrites
    cases hwrites

/-- The frame of the current request is handed to the application. -/
theorem Serve.Ledger.hands_out (h : s.Ledger) (hpc : s.pc ≠ .ended) {i : ℕ} {frame : Bytes}
    (htaken : t.taken = s.taken) (hout : t.out = s.out)
    (hdispatched : t.dispatched = s.dispatched ++ [(i, frame)])
    (hmarked : t.marked = s.marked) (hplace : t.Place) (hi : s.handed = i)
    (hhanded : t.handed = i + 1) (hrequested : Requested s.taken i frame)
    (hspoken : s.out ≠ [] ∨ Low s.taken) : t.Ledger where
  place := hplace
  marked := fun hm => absurd (h.marked (hmarked ▸ hm)) hpc
  nodup := by
    rw [hdispatched, map_append, nodup_append]
    refine ⟨h.nodup, by simp, ?_⟩
    intro x hx y hy
    obtain ⟨p, hp, rfl⟩ := mem_map.1 hx
    have hlt := h.below (.inl hpc) p hp
    rw [mem_singleton.1 hy]
    omega
  requested := fun p hp => by
    rw [htaken]
    rw [hdispatched] at hp
    rcases mem_append.1 hp with hp | hp
    · exact h.requested p hp
    · rw [mem_singleton.1 hp]
      exact hrequested
  below := fun _ p hp => by
    rw [hdispatched] at hp
    rcases mem_append.1 hp with hp | hp
    · have hlt := h.below (.inl hpc) p hp
      omega
    · rw [mem_singleton.1 hp, hhanded]
      exact Nat.lt_succ_self i
  spoken := fun _ => by
    rw [hout, htaken]
    exact hspoken

theorem Serve.Ledger.go_wait (h : s.Ledger) {a : ActiveCall} (hpc : s.pc = .wait a)
    (hdone : a.call.done = true) (ok : Bool) : (s.afterCall a.call ok).Ledger := by
  have hne : s.pc ≠ .ended := by simp [hpc]
  have hplace := h.place
  rw [Serve.Place, hpc] at hplace
  obtain ⟨exs, cin, cout, htaken, hout, hserved, hcall⟩ := hplace
  rw [afterCall]
  by_cases hends : (a.call.broken || !a.call.continued) = true
  · rw [if_pos hends]
    exact h.gives_up hne
  rw [if_neg hends]
  simp only [Bool.or_eq_true, Bool.not_eq_true', not_or, Bool.not_eq_true,
    Bool.not_eq_false] at hends
  obtain ⟨e, hreq, hans⟩ := hcall.exchange hdone hends.1 hends.2
  have hat : ∀ u : Serve, u.taken = s.taken → u.out = s.out → u.served = s.served → u.At [] := by
    intro u ht ho hs
    refine ⟨exs ++ [e], ?_, ?_, ?_⟩
    · rw [ht, htaken, requests_append_singleton, hreq, append_nil]
    · rw [ho, hout, answers_append_singleton, hans]
    · rw [hs, hserved, length_append, length_singleton]
  have hhanded : s.handed ≤ s.served := by
    simp only [handed, hpc]
    split_ifs
    · exact le_rfl
    · exact Nat.sub_le _ _
  split_ifs
  · exact h.goes hne rfl rfl rfl rfl (hat _ rfl rfl rfl) hhanded
  · exact h.goes hne rfl rfl rfl rfl ⟨hat _ rfl rfl rfl, by decide⟩ hhanded
  · exact h.ends hne [] [] (by simp) (by simp) rfl rfl rfl (h.unclosed hne)

theorem Serve.Ledger.go_woke (h : s.Ledger) {err : Option ReadErr}
    (hpc : s.pc = .woke g err) (retiring : Bool) :
    Serve.Ledger { s with pc := wakeUp retiring g err } := by
  have hne : s.pc ≠ .ended := by simp [hpc]
  have hplace := h.place
  rw [Serve.Place, hpc] at hplace
  obtain ⟨hat, hlen⟩ := hplace
  have hgoes : ∀ pc : ServePc, Serve.Place { s with pc := pc } →
      s.served ≤ handed { s with pc := pc } → Serve.Ledger { s with pc := pc } := by
    intro pc hp hh
    refine h.goes hne rfl rfl rfl rfl hp (le_trans (Nat.le_of_eq ?_) hh)
    simp [handed, hpc]
  have hmarker : g = [] → Serve.Ledger { s with pc := .marker } := by
    rintro rfl
    exact hgoes _ hat le_rfl
  unfold wakeUp
  split_ifs with hretiring hnil hnil htimeout
  · exact hmarker hnil
  · exact h.gives_up hne
  · exact hmarker hnil
  · exact h.gives_up hne
  · cases err with
    | none =>
      refine hgoes _ ?_ le_rfl
      simp only [Serve.Place, word_unword (show g.length = 4 by simpa using hlen)]
      exact hat
    | some e =>
      cases e with
      | timeout => exact hgoes _ ⟨hat, by simpa using hlen⟩ le_rfl
      | other => exact h.gives_up hne

theorem Serve.Ledger.go_plain (h : s.Ledger) {p : PlainPc} (hpc : s.pc = .plain p)
    {ok : Bool} (hgo : s.go ok = some t) : t.Ledger := by
  have hne : s.pc ≠ .ended := by simp [hpc]
  have hplace := h.place
  rw [Serve.Place, hpc] at hplace
  cases p with
  | bind n =>
    simp only [go, hpc, some.injEq] at hgo
    obtain ⟨hintro, w, htaken, hn⟩ := hplace
    have hhanded : s.handed = 0 := by simp [handed, hpc, hintro.1]
    subst hgo
    split_ifs with hok hzero
    · exact h.gives_up hne
    · refine h.goes hne rfl rfl rfl rfl ⟨hintro, w, ?_, ?_⟩ (by omega)
      · simpa using htaken
      · rw [length_nil]
        omega
    · refine h.goes hne rfl rfl rfl rfl ⟨hintro, w, ?_, hn, ?_⟩ (by omega)
      · simpa using htaken
      · rw [length_nil]
        omega
  | ready frame =>
    simp only [go, hpc] at hgo
    obtain ⟨hintro, w, htaken, hlen⟩ := hplace
    split_ifs at hgo
    · cases hgo
      refine h.hands_out hne rfl rfl rfl rfl ?_ ?_ rfl ?_ ?_
      · refine ⟨hintro.1, fun _ => hintro, ?_⟩
        simpa using hintro.unclosed answerPart_nil
      · simp [handed, hpc, hintro.1]
      · refine ⟨[], ⟨w, frame, hlen⟩, rfl, rfl, ?_⟩
        simp [htaken, Frame.bytes]
      · rcases hintro.2 with ⟨-, hlow⟩ | hout | hout
        · exact .inr hlow
        · exact .inl (by rw [hout]; simp [word])
        · exact .inl (by rw [hout]; simp [word])
    · cases hgo
      exact h.gives_up hne
  | _ => simp [go, hpc] at hgo

theorem Serve.Ledger.go (h : s.Ledger) {ok : Bool} (hgo : s.go ok = some t) : t.Ledger := by
  have hplace := h.place
  cases hpc : s.pc with
  | admission w =>
    rw [Serve.Place, hpc] at hplace
    simp only [Serve.go, hpc, some.injEq] at hgo
    subst hgo
    refine h.goes (by simp [hpc]) rfl rfl rfl rfl ?_ ?_
    · cases ok <;> exact hplace
    · cases ok <;> simp [handed, hpc]
  | bind w =>
    rw [Serve.Place, hpc] at hplace
    simp only [Serve.go, hpc, some.injEq] at hgo
    subst hgo
    exact h.goes (by simp [hpc]) rfl rfl rfl rfl hplace (by simp [handed, hpc])
  | top w =>
    rw [Serve.Place, hpc] at hplace
    simp only [Serve.go, hpc, some.injEq] at hgo
    subst hgo
    split_ifs
    · exact h.gives_up (by simp [hpc])
    · exact h.goes (by simp [hpc]) rfl rfl rfl rfl hplace (by simp [handed, hpc])
  | deliver w =>
    rw [Serve.Place, hpc] at hplace
    simp only [Serve.go, hpc] at hgo
    split_ifs at hgo
    · cases hgo
      obtain ⟨exs, htaken, hout, hserved⟩ := hplace
      refine h.goes (by simp [hpc]) rfl rfl rfl rfl ⟨exs, [], [], ?_, ?_, ?_, ?_⟩ ?_
      · simpa [ActiveCall.new, SessionCall.new] using htaken
      · simpa using hout
      · simp [hserved]
      · exact ledger_new w
      · simp [handed, hpc, ActiveCall.new]
    · cases hgo
      exact h.gives_up (by simp [hpc])
  | wait a =>
    simp only [Serve.go, hpc] at hgo
    split_ifs at hgo with hdone
    cases hgo
    exact h.go_wait hpc hdone ok
  | woke g err =>
    simp only [Serve.go, hpc, some.injEq] at hgo
    subst hgo
    exact h.go_woke hpc _
  | header w =>
    rw [Serve.Place, hpc] at hplace
    simp only [Serve.go, hpc, some.injEq] at hgo
    subst hgo
    split_ifs
    · exact h.gives_up (by simp [hpc])
    · exact h.goes (by simp [hpc]) rfl rfl rfl rfl hplace (by simp [handed, hpc])
  | plain p => exact h.go_plain hpc hgo
  | _ => simp [Serve.go, hpc] at hgo

theorem Serve.Ledger.call (h : s.Ledger) {a : ActiveCall} (hpc : s.pc = .wait a)
    {act : CallAct} {m : CallMove} (hm : a.next limit s.view act = some m) :
    (s.moved m).Ledger := by
  have hne : s.pc ≠ .ended := by simp [hpc]
  have hplace := h.place
  rw [Serve.Place, hpc] at hplace
  obtain ⟨exs, cin, cout, htaken, hout, hserved, hcall⟩ := hplace
  have hplace' : (s.moved m).Place := by
    refine ⟨exs, cin ++ s.inn.take m.read, cout ++ m.wrote, ?_, ?_, hserved, hcall.next hm⟩
    · simp only [moved, htaken, (next_keeps hm).1, append_assoc]
    · simp only [moved, hout, append_assoc]
  have hreturned := next_returned_iff hm
  by_cases hevent : ∃ frame, m.event = some (.dispatched frame)
  · obtain ⟨frame, hevent⟩ := hevent
    obtain ⟨hrecv, -, rfl, rfl⟩ := next_dispatched hm hevent
    have hreceived := hcall.received
    simp only [ActiveCall.Received, hrecv] at hreceived
    obtain ⟨hrem, rfl, hlen⟩ := hreceived
    have hhanded : s.handed = s.served - 1 := by simp [handed, hpc, hrecv]
    refine h.hands_out hne (by simp [moved]) (by simp [moved]) rfl rfl hplace'
      hhanded ?_ ?_ ?_
    · simp only [handed, moved, ↓reduceIte]
      omega
    · refine ⟨exs.map Exchange.request, ⟨a.call.head, a.frame, ?_⟩, ?_, rfl, ?_⟩
      · omega
      · rw [length_map]
        omega
      · rw [htaken]
        simp [requests, Frame.bytes]
    · refine .inl ?_
      rw [hout]
      simp [answers, acceptAnswer, Frame.bytes, word]
  · have hlog : (s.moved m).dispatched = s.dispatched := by
      simp only [moved]
      split
      · exact absurd ⟨_, ‹_›⟩ hevent
      · rfl
    refine h.moves hne _ _ rfl rfl hlog rfl hplace' ?_
    have hsame : m.next.recv = .returned ↔ a.recv = .returned := by
      simpa [hevent] using hreturned
    simp [handed, hpc, moved, hsame]

/-- Every step keeps the account of the connection. -/
theorem Serve.Ledger.step (h : s.Ledger) (hlimit : limit < 2 ^ 30) {act : ServeAct}
    (hstep : serveStep limit s act = some t) : t.Ledger := by
  have hplace := h.place
  cases act with
    simp only [serveStep] at hstep
  | send bs =>
    split_ifs at hstep
    cases hstep
    exact ⟨h.place, h.marked, h.nodup, h.requested, h.below, h.spoken⟩
  | hangup | lose | retire | shutdown =>
    cases hstep
    exact ⟨h.place, h.marked, h.nodup, h.requested, h.below, h.spoken⟩
  | expire =>
    split_ifs at hstep
    cases hstep
    exact ⟨h.place, h.marked, h.nodup, h.requested, h.below, h.spoken⟩
  | read n =>
    split_ifs at hstep with hn
    cases hstep
    exact h.read hlimit hn.1 hn.2.1 hn.2.2
  | readFail err =>
    obtain ⟨pc, hpc, rfl⟩ := map_eq_some_iff.1 hstep
    exact h.readFail hpc
  | write fault =>
    by_cases hlost : s.lost = true → fault ≠ none
    · rw [if_pos hlost] at hstep
      obtain ⟨⟨w, pc⟩, hpc, rfl⟩ := map_eq_some_iff.1 hstep
      exact h.write hpc fault
    · rw [if_neg hlost] at hstep
      cases hstep
  | go ok => exact h.go hstep
  | call act =>
    cases hpc : s.pc with
    | wait a =>
      simp only [hpc] at hstep
      obtain ⟨m, hm, rfl⟩ := map_eq_some_iff.1 hstep
      exact h.call hpc hm
    | _ => simp [hpc] at hstep
  | refuse tokens fault =>
    split at hstep
    next n hpc =>
      rw [Serve.Place, hpc] at hplace
      by_cases hok : tokens.length = 2 ∧ (s.lost = true → fault ≠ none)
      · rw [if_pos hok] at hstep
        cases hstep
        refine h.ends (by simp [hpc]) [] _ (by simp) rfl rfl rfl rfl ?_
        exact hplace.1.unclosed ((answerPart_refusal hok.1).of_part (sent_part _ _ _))
      · rw [if_neg hok] at hstep
        cases hstep
    next => cases hstep
  | reply frame fault =>
    split at hstep
    next hpc =>
      rw [Serve.Place, hpc] at hplace
      by_cases hok : frame.length ≤ limit ∧ (s.lost = true → fault ≠ none)
      · rw [if_pos hok] at hstep
        cases hstep
        have hpart : AnswerPart (word (mkHeader false false frame.length) ++ frame) :=
          answerPart_header (by omega) le_rfl
        refine h.moves (by simp [hpc]) [] _ (by simp) rfl rfl rfl ⟨hplace.1, ?_, ?_⟩ ?_
        · intro hr
          cases hr
        · exact (hplace.2.1 rfl).unclosed (hpart.of_part (sent_part _ _ _))
        · simp [handed, hpc]
      · rw [if_neg hok] at hstep
        cases hstep
    next => cases hstep
  | finish =>
    split at hstep
    next replied hpc =>
      cases hstep
      exact h.gives_up (by simp [hpc])
    next => cases hstep

end Step

theorem ledger_of_run {limit : ℕ} (hlimit : limit < 2 ^ 30) {sessions : Bool} {acts : List ServeAct}
    (hrun : run (serveStep limit) (start sessions) acts = some s) : s.Ledger :=
  run_invariant_of_forall (fun _ _ _ h hstep => h.step hlimit hstep)
    (ledger_start sessions) hrun

end Listen
