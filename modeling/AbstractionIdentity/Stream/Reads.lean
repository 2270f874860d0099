import AbstractionIdentity.Text.Bytes

/-!
# Programs that read at offsets

A program asks for bytes at an offset and goes on by what it got; the reader may answer any bytes of
the length asked for, or fail. `Holds P Q m`: whatever is answered, each read has the property `P`,
no run faults, and a result has the property `Q`. It is proved along the program (`Holds.bind`).
Programs with the same reads and ends are those that agree read by read (`agrees_iff_alike`).
-/

namespace Stream

open Text List

variable {ε φ α β : Type}

inductive Reads (ε φ α : Type) : Type where
  | done (a : α)
  | fail (err : ε)
  | fault (f : φ)
  | read (off : ℤ) (n : ℕ) (next : Bytes → Reads ε φ α)

namespace Reads

def bind : Reads ε φ α → (α → Reads ε φ β) → Reads ε φ β
  | done a, f => f a
  | fail err, _ => fail err
  | fault e, _ => fault e
  | read off n next, f => read off n fun buf => (next buf).bind f

def lift : Except φ α → Reads ε φ α
  | .ok a => done a
  | .error f => fault f

inductive Outcome (ε φ α : Type) : Type where
  | done (a : α)
  | fail (err : ε)
  | fault (f : φ)

inductive Run : Reads ε φ α → List (ℤ × ℕ) → Outcome ε φ α → Prop
  | done (a : α) : Run (done a) [] (.done a)
  | fail (err : ε) : Run (fail err) [] (.fail err)
  | fault (f : φ) : Run (fault f) [] (.fault f)
  | refused (off : ℤ) (n : ℕ) (next : Bytes → Reads ε φ α) (err : ε) :
      Run (read off n next) [(off, n)] (.fail err)
  | answered (off : ℤ) (n : ℕ) (next : Bytes → Reads ε φ α) (buf : Bytes)
      (trace : List (ℤ × ℕ)) (o : Outcome ε φ α) (hlen : buf.length = n)
      (h : Run (next buf) trace o) : Run (read off n next) ((off, n) :: trace) o

abbrev ReaderAt (ε : Type) : Type :=
  List (ℤ × ℕ) → ℤ → (n : ℕ) → Except ε { buf : Bytes // buf.length = n }

def play (reader : ReaderAt ε) : Reads ε φ α → List (ℤ × ℕ) → List (ℤ × ℕ) × Outcome ε φ α
  | done a, _ => ([], .done a)
  | fail err, _ => ([], .fail err)
  | fault f, _ => ([], .fault f)
  | read off n next, past =>
    match reader past off n with
    | .error err => ([(off, n)], .fail err)
    | .ok buf =>
      let rest := play reader (next buf.1) (past ++ [(off, n)])
      ((off, n) :: rest.1, rest.2)

theorem run_play (reader : ReaderAt ε) (m : Reads ε φ α) (past : List (ℤ × ℕ)) :
    Run m (play reader m past).1 (play reader m past).2 := by
  induction m generalizing past with
  | done a => exact .done a
  | fail err => exact .fail err
  | fault f => exact .fault f
  | read off n next ih =>
    rw [play]
    cases reader past off n with
    | error err => exact .refused off n next err
    | ok buf => exact .answered off n next buf.1 _ _ buf.2 (ih buf.1 _)

def Holds (P : ℤ → ℕ → Prop) (Q : α → Prop) : Reads ε φ α → Prop
  | done a => Q a
  | fail _ => True
  | fault _ => False
  | read off n next => P off n ∧ ∀ buf, buf.length = n → Holds P Q (next buf)

variable {P P' : ℤ → ℕ → Prop} {Q Q' : α → Prop}

variable {R : β → Prop} {f : α → Reads ε φ β} {m m' : Reads ε φ α} {past : List (ℤ × ℕ)}

theorem Holds.mono (h : Holds P Q m) (hP : ∀ off n, P off n → P' off n)
    (hQ : ∀ a, Q a → Q' a) : Holds P' Q' m := by
  induction m with
  | done a => exact hQ a h
  | fail err => trivial
  | fault f => exact h
  | read off n next ih => exact ⟨hP off n h.1, fun buf hlen => ih buf (h.2 buf hlen)⟩

theorem Holds.bind (h : Holds P Q m) (hf : ∀ a, Q a → Holds P R (f a)) : Holds P R (m.bind f) := by
  induction m with
  | done a => exact hf a h
  | fail err => trivial
  | fault e => exact h.elim
  | read off n next ih => exact ⟨h.1, fun buf hlen => ih buf (h.2 buf hlen)⟩

theorem Holds.bind_lift {x : Except φ α} {a : α}
    (hx : x = .ok a) (hf : Holds P R (f a)) : Holds P R ((lift x : Reads ε φ α).bind f) := by
  rw [hx]
  exact hf

theorem Holds.of_run (h : Holds P Q m) {trace : List (ℤ × ℕ)}
    {o : Outcome ε φ α} (hrun : Run m trace o) :
    (∀ r ∈ trace, P r.1 r.2) ∧ (∀ f, o ≠ .fault f) ∧ ∀ a, o = .done a → Q a := by
  induction hrun with
  | done a =>
    refine ⟨fun r hr => (by cases hr), fun f hf => (by cases hf), fun b hb => ?_⟩
    cases hb
    exact h
  | fail err =>
    exact ⟨fun r hr => (by cases hr), fun f hf => (by cases hf), fun b hb => (by cases hb)⟩
  | fault f => exact h.elim
  | refused off n next err =>
    refine ⟨fun r hr => ?_, fun f hf => (by cases hf), fun b hb => (by cases hb)⟩
    rw [mem_singleton.1 hr]
    exact h.1
  | answered off n next buf trace o hlen _ ih =>
    obtain ⟨hreads, hrest⟩ := ih (h.2 buf hlen)
    refine ⟨fun r hr => ?_, hrest⟩
    rcases mem_cons.1 hr with rfl | hr
    · exact h.1
    · exact hreads r hr

theorem Run.of_bind {trace : List (ℤ × ℕ)} {o : Outcome ε φ β} (h : Run (m.bind f) trace o) :
    (∃ err, o = .fail err ∧ Run m trace (.fail err)) ∨
      (∃ e, o = .fault e ∧ Run m trace (.fault e)) ∨
      ∃ a first rest, trace = first ++ rest ∧ Run m first (.done a) ∧ Run (f a) rest o := by
  induction m generalizing trace with
  | done a => exact .inr (.inr ⟨a, [], trace, rfl, .done a, h⟩)
  | fail err =>
    cases h
    exact .inl ⟨err, rfl, .fail err⟩
  | fault e =>
    cases h
    exact .inr (.inl ⟨e, rfl, .fault e⟩)
  | read off n next ih =>
    cases h with
    | refused _ _ _ err => exact .inl ⟨err, rfl, .refused off n next err⟩
    | answered _ _ _ buf trace _ hlen h =>
      rcases ih buf h with ⟨err, rfl, hrun⟩ | ⟨e, rfl, hrun⟩ |
        ⟨a, first, rest, rfl, hrun, hrest⟩
      · exact .inl ⟨err, rfl, .answered off n next buf _ _ hlen hrun⟩
      · exact .inr (.inl ⟨e, rfl, .answered off n next buf _ _ hlen hrun⟩)
      · exact .inr (.inr ⟨a, (off, n) :: first, rest, rfl,
          .answered off n next buf _ _ hlen hrun, hrest⟩)

/-! ## Programs that agree -/

/-- The programs make the same reads and end alike, with an error for an error; what they
return is the same and has the property. -/
def Agrees (Q : α → Prop) : Reads ε φ α → Reads ε φ α → Prop
  | done a, done b => a = b ∧ Q a
  | fail _, fail _ => True
  | fault f, fault g => f = g
  | read off n next, read off' n' next' =>
    off = off' ∧ n = n' ∧ ∀ buf, buf.length = n → Agrees Q (next buf) (next' buf)
  | _, _ => False

theorem Agrees.bind {g : α → Reads ε φ β}
    (h : Agrees Q m m') (hfg : ∀ a, Q a → Agrees R (f a) (g a)) :
    Agrees R (m.bind f) (m'.bind g) := by
  induction m generalizing m' with
  | done a =>
    cases m' with
    | done b =>
      obtain ⟨rfl, ha⟩ := h
      exact hfg a ha
    | _ => exact h.elim
  | fail err =>
    cases m' with
    | fail err' => trivial
    | _ => exact h.elim
  | fault e =>
    cases m' with
    | fault e' => exact h
    | _ => exact h.elim
  | read off n next ih =>
    cases m' with
    | read off' n' next' =>
      obtain ⟨rfl, rfl, hnext⟩ := h
      exact ⟨rfl, rfl, fun buf hlen => ih buf (hnext buf hlen)⟩
    | _ => exact h.elim

theorem bind_done (m : Reads ε φ α) : m.bind done = m := by
  induction m with
  | done a => rfl
  | fail err => rfl
  | fault e => rfl
  | read off n next ih => exact congrArg (read off n) (funext ih)

theorem Agrees.mono {R : α → Prop} (h : Agrees Q m m') (hQR : ∀ a, Q a → R a) : Agrees R m m' := by
  have hdone : Agrees R (m.bind done) (m'.bind done) := h.bind fun a ha => ⟨rfl, hQR a ha⟩
  rwa [bind_done, bind_done] at hdone

theorem agrees_lift {x : Except φ α} (h : ∀ a, x = .ok a → Q a) :
    Agrees Q (lift x : Reads ε φ α) (lift x) := by
  cases x with
  | error e => exact rfl
  | ok a => exact ⟨rfl, h a rfl⟩

def Alike (p q : List (ℤ × ℕ) × Outcome ε φ α) : Prop :=
  p.1 = q.1 ∧ (p.2 = q.2 ∨ ∃ err err', p.2 = .fail err ∧ q.2 = .fail err')

theorem play_congr {file file' : ReaderAt ε}
    (h : ∀ p, past <+: p → file p = file' p) : play file m past = play file' m past := by
  induction m generalizing past with
  | done a => rfl
  | fail err => rfl
  | fault e => rfl
  | read off n next ih =>
    rw [play, play, h past (prefix_refl past)]
    cases file' past off n with
    | error err => rfl
    | ok buf =>
      dsimp only
      rw [ih buf.1 fun p hp => h p ((prefix_append past [(off, n)]).trans hp)]

def answerFirst (past : List (ℤ × ℕ)) (buf : Bytes) (file : ReaderAt ε) : ReaderAt ε :=
  fun p off n =>
    if p = past then
      if h : buf.length = n then .ok ⟨buf, h⟩ else .ok ⟨List.replicate n 0, List.length_replicate⟩
    else file p off n

theorem play_answerFirst {off : ℤ} {next : Bytes → Reads ε φ α} {buf : Bytes} {file : ReaderAt ε} :
    play (answerFirst past buf file) (read off buf.length next) past =
      ((off, buf.length) :: (play file (next buf) (past ++ [(off, buf.length)])).1,
        (play file (next buf) (past ++ [(off, buf.length)])).2) := by
  have hfirst : answerFirst past buf file past off buf.length = .ok ⟨buf, rfl⟩ := by
    rw [answerFirst, if_pos rfl, dif_pos rfl]
  have hlater : ∀ p, past ++ [(off, buf.length)] <+: p → answerFirst past buf file p = file p := by
    intro p hp
    funext o k
    refine if_neg ?_
    rintro rfl
    have hlen := hp.length_le
    rw [length_append, length_singleton] at hlen
    omega
  rw [play, hfirst]
  dsimp only
  rw [play_congr hlater]

theorem agrees_iff_alike : Agrees (fun _ => True) m m' ↔
      ∀ file : ReaderAt ε, Alike (play file m past) (play file m' past) := by
  -- a reader that never fails tells a read from an end
  let zeros : ReaderAt ε := fun _ _ n => .ok ⟨List.replicate n 0, length_replicate⟩
  have hreader : Nonempty (ReaderAt ε) := ⟨zeros⟩
  induction m generalizing m' past with
  | done a =>
    cases m' with
    | read off n next => exact ⟨fun h => h.elim, fun h => by cases (h zeros).1⟩
    | _ => simp [Agrees, Alike, play]
  | fail err =>
    cases m' with
    | read off n next => exact ⟨fun h => h.elim, fun h => by cases (h zeros).1⟩
    | _ => simp [Agrees, Alike, play]
  | fault e =>
    cases m' with
    | read off n next => exact ⟨fun h => h.elim, fun h => by cases (h zeros).1⟩
    | _ => simp [Agrees, Alike, play]
  | read off n next ih =>
    cases m' with
    | read off' n' next' =>
      constructor
      · rintro ⟨rfl, rfl, hnext⟩ file
        rw [play, play]
        cases file past off n with
        | error err => exact ⟨rfl, .inl rfl⟩
        | ok buf =>
          obtain ⟨htrace, hend⟩ := (ih buf.1).1 (hnext buf.1 buf.2) file
          exact ⟨congrArg (List.cons (off, n)) htrace, hend⟩
      · intro h
        obtain ⟨hread, -⟩ := List.cons.inj (h zeros).1
        cases hread
        refine ⟨rfl, rfl, fun buf hlen => ?_⟩
        subst hlen
        refine (@ih buf (next' buf) (past ++ [(off, buf.length)])).2 fun file => ?_
        have hfile := h (answerFirst past buf file)
        rw [play_answerFirst, play_answerFirst] at hfile
        exact ⟨(List.cons.inj hfile.1).2, hfile.2⟩
    | _ => exact ⟨fun h => h.elim, fun h => by cases (h zeros).1⟩

end Reads

end Stream
