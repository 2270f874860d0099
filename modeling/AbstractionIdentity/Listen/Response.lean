import AbstractionIdentity.Listen.Client
import AbstractionIdentity.Stream.Source

/-!
# The response to a single exchange

The Go `FrameClient`, the C++ `FrameTransport` and the Rust and Python transports make one exchange
on one connection. Go and C++ know the word by which a server refuses a caller's proof; Rust and
Python take it for a length beyond the limit. The clients agree about every other response
(`single_clients_agree_iff`).
-/

namespace Listen

open Text Stream List

inductive IpcStatus where
  | ok
  | timeout
  | disconnected
  | ioError
  | invalidArgument
  | noMemory
  | internalError
  | cancelled
  | untrusted
  | proofUnavailable
  deriving DecidableEq

structure FrameError where
  message : String
  status : IpcStatus
  deriving DecidableEq

structure IpcError where
  status : IpcStatus
  transferred : ℕ
  message : String
  deriving DecidableEq

inductive ResponseClass where
  | success (payload : Bytes)
  | refused
  | oversize
  | failure
  deriving DecidableEq

def ClientErr.responseClass : ClientErr → ResponseClass
  | .refused _ _ => .refused
  | .frameTooLarge => .oversize
  | _ => .failure

def IpcStatus.responseClass : IpcStatus → ResponseClass
  | .proofUnavailable => .refused
  | .invalidArgument => .oversize
  | _ => .failure

section Clients

variable (chunk : ℕ → Bytes → ℕ)

/-- One frame of a response; `fail`, `refusal` and `tooLarge` are what the client makes of an early
end, of the word of a refusal and of a length beyond the limit. -/
def decodeFrame {ε : Type} (fail : Bytes → ε) (refusal : Option (Bytes → ε))
    (tooLarge : ℕ → Option ε) (inn : Bytes) : Except ε Bytes :=
  match readExact chunk fail 4 inn with
  | .error e => .error e
  | .ok (header, rest) =>
    let size := unword header
    match if size = proofRefusalHeader then refusal else none with
    | some read => .error (read rest)
    | none => match tooLarge size.toNat with
        | some e => .error e
        | none => (readExact chunk fail size.toNat rest).map Prod.fst

def decodeEnd {ε : Type} (fail : Bytes → ε) (refusal : Bytes → ε) (unexpected : ε)
    (inn : Bytes) : Except ε Bytes :=
  match readSome chunk 1 inn with
  | none => .ok []
  | some (b, rest) =>
    if b = [255] then
      match readExact chunk fail 3 rest with
      | .error e => .error e
      | .ok (tail, rest) =>
        if unword (b ++ tail) = proofRefusalHeader then .error (refusal rest)
        else .error unexpected
    else .error unexpected

/-- The error of `io.ReadFull` on a stream that ends. -/
def endError (got : Bytes) : ClientErr := if got = [] then .eof else .unexpectedEOF

def readProofRefusal (inn : Bytes) : ClientErr :=
  match readExact chunk endError 2 inn with
  | .error e => e
  | .ok (tokens, _) => refusalOf tokens

def readFrame (limit : ℕ) (inn : Bytes) : Except ClientErr Bytes :=
  decodeFrame chunk endError (some (readProofRefusal chunk))
    (fun n => if limit < n then some .frameTooLarge else none) inn

def waitFrameEOF (inn : Bytes) : Except ClientErr Bytes :=
  decodeEnd chunk endError (readProofRefusal chunk) .unexpectedResponse inn

def goCall (maxFrame : UInt32) (frame : Bytes) (oneWay : Bool) (inn : Bytes) :
    Except ClientErr Bytes :=
  if frameLimit maxFrame < frame.length then .error .frameTooLarge
  else if oneWay then waitFrameEOF chunk inn
  else readFrame chunk (frameLimit maxFrame) inn

/-- The error of `read_exact` in `frame.hpp`. -/
def cppTruncated : FrameError := ⟨"truncated frame or read failure", .disconnected⟩

def cppRefusalNames : List String := ["", "user", "process", "path", "package", "code"]

def cppRefusalProofs : List String :=
  ["", "claimed", "invalid", "unsigned", "unmet", "pid", "bound", "kernel", "signed"]

def throwProofRefusal (inn : Bytes) : FrameError :=
  match readExact chunk (fun _ => cppTruncated) 2 inn with
  | .error e => e
  | .ok (tokens, _) =>
    let attr := tokens.getD 0 0
    let required := tokens.getD 1 0
    if 5 < attr ∨ 8 < required ∨ decide (attr = 0) ≠ decide (required = 0) then
      ⟨"malformed caller-proof refusal", .ioError⟩
    else if attr = 0 then ⟨"receiver refused caller proof", .proofUnavailable⟩
    else ⟨"receiver refused caller proof: " ++ cppRefusalNames.getD attr.toNat "" ++
      " requires " ++ cppRefusalProofs.getD required.toNat "", .proofUnavailable⟩

/-- `limit_` of a `FrameTransport`. -/
def cppLimit (maxFrame : UInt32) : UInt32 := if maxFrame = 0 then defaultMaxFrame else maxFrame

/-- What `check_size` throws. -/
def checkSize (maxFrame : UInt32) (size : ℕ) : Option FrameError :=
  if (cppLimit maxFrame).toNat < size ∨ 0x3FFFFFFF < size then
    some ⟨"frame too large", .invalidArgument⟩
  else none

def cppWriteFrame (maxFrame : UInt32) (frame inn : Bytes) : Except FrameError Bytes :=
  match checkSize maxFrame frame.length with
  | some e => .error e
  | none => decodeEnd chunk (fun _ => cppTruncated) (throwProofRefusal chunk)
      ⟨"unexpected response to one-way frame", .ioError⟩ inn

def cppExchangeFrame (maxFrame : UInt32) (frame inn : Bytes) : Except FrameError Bytes :=
  match checkSize maxFrame frame.length with
  | some e => .error e
  | none => decodeFrame chunk (fun _ => cppTruncated) (some (throwProofRefusal chunk))
      (checkSize maxFrame) inn

/-- The error of `Connection::read` in Rust and `_read` in Python. -/
def ipcTruncated (got : Bytes) : IpcError :=
  ⟨.disconnected, got.length, "truncated frame or read failure"⟩

def ipcTooLarge (limit size : ℕ) : Option IpcError :=
  if limit < size then some ⟨.invalidArgument, 0, "response frame too large"⟩ else none

def rustExchangeFrame (limit : ℕ) (frame inn : Bytes) : Except IpcError Bytes :=
  if limit < frame.length then .error ⟨.invalidArgument, 0, "outbound frame too large"⟩
  else decodeFrame chunk ipcTruncated none (ipcTooLarge limit) inn

def rustWriteFrame (limit : ℕ) (frame inn : Bytes) : Except IpcError Bytes :=
  if limit < frame.length then .error ⟨.invalidArgument, 0, "outbound frame too large"⟩
  else match readExact chunk ipcTruncated 1 inn with
    | .error e => if e.status = .disconnected then .ok [] else .error e
    | .ok _ => .error ⟨.ioError, 0, "unexpected one-way reply"⟩

def pyCall (maxFrame : ℕ) (frame : Bytes) (reply : Bool) (inn : Bytes) :
    Except IpcError Bytes :=
  if maxFrame < frame.length then .error ⟨.invalidArgument, 0, "frame must be bounded bytes"⟩
  else if reply then decodeFrame chunk ipcTruncated none (ipcTooLarge maxFrame) inn
  else match readSome chunk 1 inn with
    | none => .ok []
    | some _ => .error ⟨.ioError, 0, "unexpected one-way completion"⟩

end Clients

inductive SingleClient where
  | go
  | cpp
  | rust
  | python
  deriving DecidableEq

def SingleClient.acceptsLimit (limit : ℕ) : SingleClient → Bool
  | .go | .cpp => limit < 2 ^ 32
  | .rust => limit ≠ 0 && limit ≤ 2 * 1024 * 1024
  | .python => 1 ≤ limit && limit ≤ 2 * 1024 * 1024

def report {ε : Type} (cls : ε → ResponseClass) : Except ε Bytes → ResponseClass
  | .ok payload => .success payload
  | .error e => cls e

def SingleClient.call (chunk : ℕ → Bytes → ℕ) (limit : ℕ) (frame : Bytes) (oneWay : Bool)
    (inn : Bytes) : SingleClient → ResponseClass
  | .go => report ClientErr.responseClass (goCall chunk (.ofNat limit) frame oneWay inn)
  | .cpp => report (fun e => e.status.responseClass)
      (if oneWay then cppWriteFrame chunk (.ofNat limit) frame inn
        else cppExchangeFrame chunk (.ofNat limit) frame inn)
  | .rust => report (fun e => e.status.responseClass)
      (if oneWay then rustWriteFrame chunk limit frame inn
        else rustExchangeFrame chunk limit frame inn)
  | .python => report (fun e => e.status.responseClass)
      (pyCall chunk limit frame (!oneWay) inn)

def validTokens (tokens : Bytes) : Bool :=
  match tokens with
  | [attr, required] =>
    attr.toNat < 6 && required.toNat ≤ 8 && decide (attr = 0) == decide (required = 0)
  | _ => false

def IsRefusal (response : Bytes) : Prop :=
  ∃ tokens, validTokens tokens = true ∧ response = word proofRefusalHeader ++ tokens

def BeginsRefused (oneWay : Bool) (response : Bytes) : Prop :=
  if oneWay then ∃ r, IsRefusal r ∧ r <+: response
  else word proofRefusalHeader <+: response

def tokensClass (rest : Bytes) : ResponseClass :=
  if validTokens (rest.take 2) then .refused else .failure

/-- The class of a response to an exchange, for a client that knows the word of a
refusal or one that does not. -/
def exchangeClass (knows : Bool) (limit : ℕ) (response : Bytes) : ResponseClass :=
  if response.length < 4 then .failure
  else if knows ∧ unword response = proofRefusalHeader then tokensClass (response.drop 4)
  else if limit < (unword response).toNat then .oversize
  else if (response.drop 4).length < (unword response).toNat then .failure
  else .success ((response.drop 4).take (unword response).toNat)

def oneWayClass (knows : Bool) (response : Bytes) : ResponseClass :=
  if response = [] then .success []
  else if knows ∧ 4 ≤ response.length ∧ unword response = proofRefusalHeader then
    tokensClass (response.drop 4)
  else .failure

def SingleClient.knowsRefusal : SingleClient → Bool
  | .go | .cpp => true
  | .rust | .python => false

open SingleClient

section Spec

variable {chunk : ℕ → Bytes → ℕ} {limit : ℕ} {frame inn : Bytes}

theorem unword_take (inn : Bytes) : unword (inn.take 4) = unword inn := by
  match inn with
  | [] | [_] | [_, _] | [_, _, _] | _ :: _ :: _ :: _ :: _ => rfl

theorem word_prefix_iff (w : UInt32) (inn : Bytes) :
    word w <+: inn ↔ 4 ≤ inn.length ∧ unword inn = w := by
  constructor
  · rintro ⟨t, rfl⟩
    exact ⟨by simp, unword_word_append w t⟩
  · rintro ⟨hlen, rfl⟩
    rw [← unword_take, word_unword (by simp [hlen])]
    exact take_prefix 4 inn

theorem toNat_ofNat_limit (hle : limit < 2 ^ 30) : (UInt32.ofNat limit).toNat = limit := by
  rw [UInt32.toNat_ofNat']
  omega

theorem frameLimit_ofNat (hpos : 0 < limit) (hle : limit < 2 ^ 30) :
    frameLimit (.ofNat limit) = limit := by
  have hnat := toNat_ofNat_limit hle
  have hzero : UInt32.ofNat limit ≠ 0 := by
    intro h
    rw [h] at hnat
    exact hpos.ne hnat
  have hmask : ¬ lengthMask < UInt32.ofNat limit := by
    rw [UInt32.lt_iff_toNat_lt, hnat]
    have hval : lengthMask.toNat = 2 ^ 30 - 1 := rfl
    omega
  rw [frameLimit, if_neg hzero, if_neg hmask, hnat]

theorem checkSize_ofNat (hpos : 0 < limit) (hle : limit < 2 ^ 30) (size : ℕ) :
    checkSize (.ofNat limit) size =
      if limit < size then some ⟨"frame too large", .invalidArgument⟩ else none := by
  have hnat := toNat_ofNat_limit hle
  have hlimit : (cppLimit (.ofNat limit)).toNat = limit := by
    rw [cppLimit, if_neg, hnat]
    intro h
    rw [h] at hnat
    exact hpos.ne hnat
  rw [checkSize, hlimit]
  apply if_congr _ rfl rfl
  omega

theorem validTokens_eq_false_iff (a b : UInt8) : validTokens [a, b] = false ↔
    6 ≤ a.toNat ∨ 8 < b.toNat ∨ decide (a = 0) ≠ decide (b = 0) := by
  rw [← Bool.not_eq_true, ← not_iff_comm]
  simp [validTokens, and_assoc]

theorem tokensClass_of_lt (h : inn.length < 2) : tokensClass inn = .failure := by
  match inn, h with
  | [], _ | [_], _ => rfl

theorem tokensClass_cons_cons (a b : UInt8) (rest : Bytes) :
    tokensClass (a :: b :: rest) = if validTokens [a, b] then .refused else .failure := rfl

theorem readProofRefusal_class : (readProofRefusal chunk inn).responseClass = tokensClass inn := by
  rcases Nat.lt_or_ge inn.length 2 with hlt | hle
  · rw [readProofRefusal, readExact_of_lt chunk _ hlt, tokensClass_of_lt hlt]
    simp only [endError]
    split_ifs <;> rfl
  · rw [readProofRefusal, readExact_of_le chunk _ hle]
    match inn, hle with
    | a :: b :: inn, _ =>
      rw [tokensClass_cons_cons]
      simp only [take_succ_cons, take_zero, refusalOf]
      cases hvalid : validTokens [a, b] with
      | false =>
        rw [if_pos ((validTokens_eq_false_iff a b).1 hvalid)]
        rfl
      | true =>
        rw [if_neg]
        · rfl
        · intro hbad
          rw [(validTokens_eq_false_iff a b).2 hbad] at hvalid
          cases hvalid

theorem throwProofRefusal_class :
    (throwProofRefusal chunk inn).status.responseClass = tokensClass inn := by
  rcases Nat.lt_or_ge inn.length 2 with hlt | hle
  · rw [throwProofRefusal, readExact_of_lt chunk _ hlt, tokensClass_of_lt hlt]
    rfl
  · rw [throwProofRefusal, readExact_of_le chunk _ hle]
    match inn, hle with
    | a :: b :: inn, _ =>
      have hrange : 5 < a ∨ 8 < b ∨ decide (a = 0) ≠ decide (b = 0) ↔
          validTokens [a, b] = false := by
        rw [validTokens_eq_false_iff, UInt8.lt_iff_toNat_lt, UInt8.lt_iff_toNat_lt]
        rfl
      rw [tokensClass_cons_cons]
      simp only [take_succ_cons, take_zero, getD_cons_zero, getD_cons_succ]
      cases hvalid : validTokens [a, b] with
      | false =>
        rw [if_pos (hrange.2 hvalid)]
        rfl
      | true =>
        rw [if_neg]
        · simp only [↓reduceIte]
          split_ifs <;> rfl
        · intro hbad
          rw [hrange.1 hbad] at hvalid
          cases hvalid

section Decode

variable {ε : Type} {cls : ε → ResponseClass} {fail : Bytes → ε}

theorem body_class (hfail : ∀ got, cls (fail got) = .failure) {tooLarge : ℕ → Option ε}
    (hlarge : ∀ n, (tooLarge n).map cls = if limit < n then some .oversize else none) (n : ℕ) :
    report cls (match tooLarge n with
      | some e => .error e
      | none => (readExact chunk fail n inn).map Prod.fst) =
    if limit < n then .oversize
    else if inn.length < n then .failure
    else .success (inn.take n) := by
  have hn := hlarge n
  by_cases hlt : limit < n
  · rw [if_pos hlt] at hn ⊢
    obtain ⟨e, he, hcls⟩ := Option.map_eq_some_iff.1 hn
    rw [he]
    exact hcls
  · rw [if_neg hlt] at hn ⊢
    rw [Option.map_eq_none_iff.1 hn]
    split_ifs with hshort
    · rw [readExact_of_lt chunk _ hshort]
      exact hfail inn
    · rw [readExact_of_le chunk _ (Nat.not_lt.1 hshort)]
      rfl

theorem decodeFrame_class (hfail : ∀ got, cls (fail got) = .failure)
    {refusal : Option (Bytes → ε)} (hrefusal : ∀ read ∈ refusal, ∀ rest,
      cls (read rest) = tokensClass rest) {tooLarge : ℕ → Option ε}
    (hlarge : ∀ n, (tooLarge n).map cls = if limit < n then some .oversize else none) :
    report cls (decodeFrame chunk fail refusal tooLarge inn) =
      exchangeClass refusal.isSome limit inn := by
  rw [decodeFrame, exchangeClass]
  rcases Nat.lt_or_ge inn.length 4 with hlt | hle
  · rw [readExact_of_lt chunk _ hlt, if_pos hlt]
    exact hfail inn
  · rw [readExact_of_le chunk _ hle, if_neg (Nat.not_lt.2 hle)]
    simp only [unword_take]
    by_cases hw : unword inn = proofRefusalHeader
    · rw [if_pos hw]
      cases refusal with
      | none => exact (body_class hfail hlarge _).trans (if_neg (by simp)).symm
      | some read =>
        rw [if_pos ⟨rfl, hw⟩]
        exact hrefusal read rfl _
    · rw [if_neg hw, if_neg fun h => hw h.2]
      exact body_class hfail hlarge _

theorem decodeEnd_class (hfail : ∀ got, cls (fail got) = .failure) {refusal : Bytes → ε}
    (hrefusal : ∀ rest, cls (refusal rest) = tokensClass rest) {unexpected : ε}
    (hunexpected : cls unexpected = .failure) :
    report cls (decodeEnd chunk fail refusal unexpected inn) = oneWayClass true inn := by
  rw [decodeEnd, oneWayClass]
  cases inn with
  | nil => rfl
  | cons b inn =>
    rw [readSome_one, if_neg (cons_ne_nil b inn)]
    by_cases hb : b = 255
    · subst hb
      rcases Nat.lt_or_ge inn.length 3 with hlt | hle
      · rw [if_neg]
        · simp only [↓reduceIte, readExact_of_lt chunk _ hlt]
          exact hfail inn
        · rintro ⟨-, hlen, -⟩
          rw [length_cons] at hlen
          omega
      · simp only [↓reduceIte, readExact_of_le chunk _ hle]
        have hlen : 4 ≤ (255 :: inn : Bytes).length := Nat.succ_le_succ hle
        have hword : unword ([255] ++ inn.take 3) = unword (255 :: inn) := unword_take (255 :: inn)
        rw [hword]
        by_cases hw : unword (255 :: inn) = proofRefusalHeader
        · rw [if_pos hw, if_pos ⟨trivial, hlen, hw⟩]
          exact hrefusal _
        · rw [if_neg hw, if_neg fun h => hw h.2.2]
          exact hunexpected
    · have hbs : [b] ≠ [255] := fun h => hb (List.cons.inj h).1
      simp only [if_neg hbs]
      rw [if_neg]
      · exact hunexpected
      · rintro ⟨-, hlen, hw⟩
        obtain ⟨t, ht⟩ := (word_prefix_iff _ _).2 ⟨hlen, hw⟩
        exact hb (List.cons.inj ht).1.symm

theorem decodeFrame_ne {refusal : Option (Bytes → ε)} {tooLarge : ℕ → Option ε} {e : ε}
    (hfail : ∀ got, fail got ≠ e) (hrefusal : ∀ read ∈ refusal, ∀ rest, read rest ≠ e)
    (hlarge : ∀ n, tooLarge n ≠ some e) :
    decodeFrame chunk fail refusal tooLarge inn ≠ .error e := by
  have hread := readExact_ne chunk hfail
  rw [decodeFrame]
  cases hheader : readExact chunk fail 4 inn with
  | error e' =>
    have hne := hread 4 inn
    rw [hheader] at hne
    simpa using hne
  | ok p =>
    simp only
    cases hword : (if unword p.1 = proofRefusalHeader then refusal else none) with
    | some read =>
      have hmem : read ∈ refusal := by
        split_ifs at hword
        exact hword
      simpa using hrefusal read hmem p.2
    | none =>
      cases hsize : tooLarge (unword p.1).toNat with
      | some e' =>
        have hne := hlarge (unword p.1).toNat
        rw [hsize] at hne
        simpa using hne
      | none =>
        cases hbody : readExact chunk fail (unword p.1).toNat p.2 with
        | error e' =>
          have hne := hread (unword p.1).toNat p.2
          rw [hbody] at hne
          simpa [Except.map] using hne
        | ok q => simp [Except.map]

theorem decodeEnd_ne {refusal : Bytes → ε} {unexpected e : ε} (hfail : ∀ got, fail got ≠ e)
    (hrefusal : ∀ rest, refusal rest ≠ e) (hunexpected : unexpected ≠ e) :
    decodeEnd chunk fail refusal unexpected inn ≠ .error e := by
  rw [decodeEnd]
  cases readSome chunk 1 inn with
  | none => simp
  | some p =>
    simp only
    split_ifs
    · cases htail : readExact chunk fail 3 p.2 with
      | error e' =>
        have hne := readExact_ne chunk hfail 3 p.2
        rw [htail] at hne
        simpa using hne
      | ok q =>
        simp only
        split_ifs
        · simpa using hrefusal q.2
        · simpa using hunexpected
    · simpa using hunexpected

end Decode

theorem endError_class (got : Bytes) : (endError got).responseClass = .failure := by
  rw [endError]
  split_ifs <;> rfl

theorem readFrame_class (limit : ℕ) : report ClientErr.responseClass (readFrame chunk limit inn) =
      exchangeClass true limit inn := by
  rw [readFrame]
  apply decodeFrame_class endError_class
  · rintro read ⟨⟩ rest
    exact readProofRefusal_class
  · intro n
    split_ifs <;> rfl

theorem waitFrameEOF_class :
    report ClientErr.responseClass (waitFrameEOF chunk inn) = oneWayClass true inn := by
  rw [waitFrameEOF]
  apply decodeEnd_class endError_class
  · intro rest
    exact readProofRefusal_class
  · rfl

theorem ipcFrame_class (limit : ℕ) : report (fun e : IpcError => e.status.responseClass)
      (decodeFrame chunk ipcTruncated none (ipcTooLarge limit) inn) =
      exchangeClass false limit inn := by
  apply decodeFrame_class fun _ => rfl
  · rintro read ⟨⟩
  · intro n
    rw [ipcTooLarge]
    split_ifs <;> rfl

/-- Every client classifies responses as one that knows the word of a refusal or as one
that does not. -/
theorem call_eq (a : SingleClient) (hpos : 0 < limit) (hle : limit < 2 ^ 30)
    (hframe : frame.length ≤ limit) (oneWay : Bool) :
    a.call chunk limit frame oneWay inn =
      if oneWay then oneWayClass a.knowsRefusal inn
      else exchangeClass a.knowsRefusal limit inn := by
  have hfits : ¬ limit < frame.length := Nat.not_lt.2 hframe
  cases a with
  | go =>
    rw [call, goCall, frameLimit_ofNat hpos hle, if_neg hfits]
    cases oneWay with
    | true => exact waitFrameEOF_class
    | false => exact readFrame_class limit
  | cpp =>
    have hsize : checkSize (.ofNat limit) frame.length = none := by
      rw [checkSize_ofNat hpos hle, if_neg hfits]
    rw [call, cppWriteFrame, cppExchangeFrame, hsize]
    cases oneWay with
    | true =>
      simp only [↓reduceIte]
      apply decodeEnd_class fun _ => rfl
      · intro rest
        exact throwProofRefusal_class
      · rfl
    | false =>
      simp only [Bool.false_eq_true, ↓reduceIte]
      apply decodeFrame_class fun _ => rfl
      · rintro read ⟨⟩ rest
        exact throwProofRefusal_class
      · intro n
        rw [checkSize_ofNat hpos hle]
        split_ifs <;> rfl
  | rust =>
    rw [call, rustWriteFrame, rustExchangeFrame, if_neg hfits, if_neg hfits]
    cases oneWay with
    | true =>
      cases inn with
      | nil => rfl
      | cons b inn =>
        have hone : 1 ≤ (b :: inn).length := by simp
        simp only [↓reduceIte, readExact_of_le chunk _ hone]
        rfl
    | false => exact ipcFrame_class limit
  | python =>
    rw [call, pyCall, if_neg hfits]
    cases oneWay with
    | true =>
      cases inn with
      | nil => rfl
      | cons b inn =>
        simp only [Bool.not_true, Bool.false_eq_true, ↓reduceIte, readSome_one]
        rfl
    | false => exact ipcFrame_class limit

end Spec

section Agreement

variable {limit : ℕ} {response : Bytes}

theorem IsRefusal.begins (h : IsRefusal response) (oneWay : Bool) :
    BeginsRefused oneWay response := by
  cases oneWay with
  | true => exact ⟨response, h, prefix_refl _⟩
  | false =>
    obtain ⟨tokens, -, rfl⟩ := h
    exact ⟨tokens, rfl⟩

theorem tokensClass_eq_refused_iff (rest : Bytes) :
    tokensClass rest = .refused ↔ validTokens (rest.take 2) = true := by
  rw [tokensClass]
  split_ifs with h <;> simp [h]

theorem tokensClass_ne_oversize (rest : Bytes) : tokensClass rest ≠ .oversize := by
  rw [tokensClass]
  split_ifs <;> simp

theorem exchangeClass_of_begins (h : BeginsRefused false response) (hle : limit ≤ 2 * 1024 * 1024) :
    exchangeClass true limit response ≠ exchangeClass false limit response := by
  obtain ⟨hlen, hw⟩ := (word_prefix_iff _ _).1 h
  have hlarge : limit < (unword response).toNat := by
    rw [hw]
    exact hle.trans_lt (by decide)
  rw [exchangeClass, exchangeClass, if_neg (Nat.not_lt.2 hlen), if_neg (Nat.not_lt.2 hlen),
    if_pos ⟨rfl, hw⟩, if_neg (by simp), if_pos hlarge]
  exact tokensClass_ne_oversize _

theorem exchangeClass_of_not_begins (h : ¬ BeginsRefused false response) (knows : Bool) :
    exchangeClass knows limit response = exchangeClass false limit response ∧
      exchangeClass knows limit response ≠ .refused := by
  rw [exchangeClass, exchangeClass]
  by_cases hlen : response.length < 4
  · rw [if_pos hlen, if_pos hlen]
    exact ⟨rfl, by simp⟩
  · have hw : unword response ≠ proofRefusalHeader := fun hw =>
      h ((word_prefix_iff _ _).2 ⟨Nat.not_lt.1 hlen, hw⟩)
    have hno : ∀ k : Bool, ¬ (k = true ∧ unword response = proofRefusalHeader) :=
      fun k hk => hw hk.2
    rw [if_neg hlen, if_neg hlen, if_neg (hno knows), if_neg (hno false)]
    refine ⟨rfl, ?_⟩
    split_ifs <;> simp

theorem oneWayClass_eq_refused_iff :
    oneWayClass true response = .refused ↔ BeginsRefused true response := by
  constructor
  · intro h
    rw [oneWayClass] at h
    split_ifs at h with hnil hw
    have hvalid := (tokensClass_eq_refused_iff _).1 h
    obtain ⟨t, rfl⟩ := (word_prefix_iff _ _).2 hw.2
    rw [drop_left' (length_word _)] at hvalid
    refine ⟨word proofRefusalHeader ++ t.take 2, ⟨t.take 2, hvalid, rfl⟩, ?_⟩
    rw [prefix_append_right_inj]
    exact take_prefix 2 t
  · rintro ⟨r, ⟨tokens, hvalid, rfl⟩, t, rfl⟩
    rw [append_assoc]
    match tokens, hvalid with
    | [a, b], hvalid =>
      rw [oneWayClass, if_neg (by simp [word]), if_pos]
      · rw [drop_left' (length_word _), tokensClass_eq_refused_iff]
        exact hvalid
      · exact ⟨rfl, (word_prefix_iff _ _).1 ⟨_, rfl⟩⟩

theorem oneWayClass_false_ne_refused : oneWayClass false response ≠ .refused := by
  rw [oneWayClass]
  split_ifs with hnil hfalse
  · simp
  · exact absurd hfalse.1 (by simp)
  · simp

theorem oneWayClass_of_not_begins (h : ¬ BeginsRefused true response) (knows : Bool) :
    oneWayClass knows response = oneWayClass false response ∧
      oneWayClass knows response ≠ .refused := by
  cases knows with
  | false => exact ⟨rfl, oneWayClass_false_ne_refused⟩
  | true =>
    have hne := fun heq => h (oneWayClass_eq_refused_iff.1 heq)
    refine ⟨?_, hne⟩
    rw [oneWayClass] at hne
    rw [oneWayClass, oneWayClass]
    by_cases hnil : response = []
    · rw [if_pos hnil, if_pos hnil]
    · have hno : ¬ (false = true ∧ 4 ≤ response.length ∧
          unword response = proofRefusalHeader) := by simp
      rw [if_neg hnil] at hne ⊢
      rw [if_neg hnil, if_neg hno]
      by_cases hw : true = true ∧ 4 ≤ response.length ∧ unword response = proofRefusalHeader
      · rw [if_pos hw, tokensClass] at hne
        rw [if_pos hw, tokensClass, if_neg]
        intro hvalid
        exact hne (if_pos hvalid)
      · rw [if_neg hw]

/-- The four clients report the same class for a response, and a refusal exactly when
the response is one, unless the response begins with a refusal. -/
theorem single_clients_agree_iff (chunk : SingleClient → ℕ → Bytes → ℕ) (limit : ℕ)
    (hlimit : ∀ a : SingleClient, a.acceptsLimit limit = true) (frame : Bytes)
    (hframe : frame.length ≤ limit) (oneWay : Bool) (response : Bytes) :
    ((∀ a b : SingleClient, a.call (chunk a) limit frame oneWay response =
        b.call (chunk b) limit frame oneWay response) ∧
      ∀ a : SingleClient, a.call (chunk a) limit frame oneWay response = .refused ↔
        IsRefusal response) ↔
    ¬ BeginsRefused oneWay response := by
  have hbounds := hlimit .python
  simp only [acceptsLimit, Bool.and_eq_true, decide_eq_true_iff] at hbounds
  obtain ⟨hpos, hle⟩ := hbounds
  have hcall : ∀ a : SingleClient, a.call (chunk a) limit frame oneWay response =
      if oneWay then oneWayClass a.knowsRefusal response
      else exchangeClass a.knowsRefusal limit response := fun a =>
    call_eq a hpos (by omega) hframe oneWay
  constructor
  · rintro ⟨hsame, -⟩ hbegins
    have hgo := hsame .go .rust
    rw [hcall, hcall] at hgo
    cases oneWay with
    | true =>
      have hrefused := oneWayClass_eq_refused_iff.2 hbegins
      exact oneWayClass_false_ne_refused (hgo.symm.trans hrefused)
    | false => exact exchangeClass_of_begins hbegins hle hgo
  · intro hbegins
    have hclass : ∀ a : SingleClient, a.call (chunk a) limit frame oneWay response =
            (if oneWay then oneWayClass false response
              else exchangeClass false limit response) ∧
          a.call (chunk a) limit frame oneWay response ≠ .refused := by
      intro a
      rw [hcall]
      cases oneWay with
      | true => exact oneWayClass_of_not_begins hbegins _
      | false => exact exchangeClass_of_not_begins hbegins _
    refine ⟨fun a b => (hclass a).1.trans (hclass b).1.symm, fun a => ?_⟩
    exact ⟨fun h => absurd h (hclass a).2, fun h => absurd (h.begins oneWay) hbegins⟩

theorem single_clients_agree_sample : (∀ a : SingleClient, a.acceptsLimit 5 = true) ∧
    ((∀ a b : SingleClient, a.call (fun _ _ => 1) 5 [] false [0, 0, 0, 1, 7] =
        b.call (fun _ _ => 1) 5 [] false [0, 0, 0, 1, 7]) ∧
      ∀ a : SingleClient, a.call (fun _ _ => 1) 5 [] false [0, 0, 0, 1, 7] = .refused ↔
        IsRefusal [0, 0, 0, 1, 7]) := by
  have hlimit : ∀ a : SingleClient, a.acceptsLimit 5 = true := by
    intro a
    cases a <;> decide
  refine ⟨hlimit, ?_⟩
  apply (single_clients_agree_iff (fun _ _ _ => 1) 5 hlimit [] (Nat.zero_le 5) false
    [0, 0, 0, 1, 7]).2
  intro hbegins
  exact absurd ((word_prefix_iff _ _).1 hbegins).2 (by decide)

def pathRefusal : Bytes := word proofRefusalHeader ++ [3, 5]

theorem refusal_unknown_to_rust : IsRefusal pathRefusal ∧
    SingleClient.go.call (fun _ _ => 1) 5 [] false pathRefusal = .refused ∧
    SingleClient.cpp.call (fun _ _ => 1) 5 [] false pathRefusal = .refused ∧
    SingleClient.rust.call (fun _ _ => 1) 5 [] false pathRefusal = .oversize ∧
    SingleClient.python.call (fun _ _ => 1) 5 [] false pathRefusal = .oversize ∧
    SingleClient.go.call (fun _ _ => 1) 5 [] true pathRefusal = .refused ∧
    SingleClient.rust.call (fun _ _ => 1) 5 [] true pathRefusal = .failure :=
  ⟨⟨[3, 5], by decide, rfl⟩, by decide, by decide, by decide, by decide, by decide, by decide⟩

end Agreement

end Listen
