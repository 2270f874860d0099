import AbstractionIdentity.Text.Record
import AbstractionIdentity.Text.Search
import Mathlib.Tactic.IntervalCases

/-!
# The program of a systemd unit

`program` takes the path of a unit's program from what `systemctl show` prints: it cuts the entry
at the first ` ; argv[]=` and takes the escapes out of the part before it. Spaces are printed as
they are, so a path may hold the delimiter; that is the only way to misread it
(`program_reads_iff`).
-/

namespace Linux.Unit

open Text List

/-! ## Escapes -/

def letters : List (UInt8 × UInt8) :=
  [(97, 7), (98, 8), (102, 12), (110, 10), (114, 13), (116, 9), (118, 11)]

def number (base : ℕ) : ℕ → Bytes → ℕ → Option (ℕ × Bytes)
  | 0, s, value => some (value, s)
  | _ + 1, [], _ => none
  | n + 1, c :: s, value =>
    (hexDigit c).bind fun d => if d < base then number base n s (value * base + d) else none

def utf8 (value : ℕ) : Option Bytes :=
  if 0x10ffff < value ∨ 0xd800 ≤ value ∧ value ≤ 0xdfff then none
  else if value < 0x80 then some [.ofNat value]
  else if value < 0x800 then some [.ofNat (0xc0 ||| value >>> 6), .ofNat (0x80 ||| value &&& 63)]
  else if value < 0x10000 then
    some [.ofNat (0xe0 ||| value >>> 12), .ofNat (0x80 ||| value >>> 6 &&& 63),
      .ofNat (0x80 ||| value &&& 63)]
  else
    some [.ofNat (0xf0 ||| value >>> 18), .ofNat (0x80 ||| value >>> 12 &&& 63),
      .ofNat (0x80 ||| value >>> 6 &&& 63), .ofNat (0x80 ||| value &&& 63)]

def unescape (c : UInt8) (rest : Bytes) : Option (Bytes × Bytes) :=
  if c = 92 ∨ c = 34 then some ([c], rest)
  else
    match letters.lookup c with
    | some value => some ([value], rest)
    | none =>
      if c = 120 then (number 16 2 rest 0).map fun r => ([.ofNat r.1], r.2)
      else if c = 117 then
        (number 16 4 rest 0).bind fun r => (utf8 r.1).map fun bytes => (bytes, r.2)
      else if c = 85 then
        (number 16 8 rest 0).bind fun r => (utf8 r.1).map fun bytes => (bytes, r.2)
      else if 48 ≤ c ∧ c ≤ 55 then
        (number 8 3 (c :: rest) 0).bind fun r =>
          if 255 < r.1 then none else some ([.ofNat r.1], r.2)
      else none

def decodeFrom : ℕ → Bytes → Option Bytes
  | _, [] => some []
  | 0, _ :: _ => none
  | fuel + 1, b :: rest =>
    if b ≠ 92 then (decodeFrom fuel rest).map (b :: ·)
    else
      match rest with
      | [] => none
      | c :: rest =>
        (unescape c rest).bind fun r => (decodeFrom fuel r.2).map (r.1 ++ ·)

def decodePath (text : Bytes) : Option Bytes := decodeFrom text.length text

/-! ## The entry -/

def pathOpen : Bytes := ascii "\x7b path="

def entryEnd : Bytes := ascii " \x7d"

def argvMark : Bytes := ascii " ; argv[]="

def ignoreMark : Bytes := ascii " ; ignore_errors=no ; "

/-- The checks of the path: it is absolute, has no NUL, CR or LF and no slash at its end, and no
component is empty, `.` or `..`. -/
def cleanPath (path : Bytes) : Bool :=
  path.head? = some 47 && !path.any (· ∈ [0, 13, 10]) &&
    (path.length ≤ 1 || path.getLast? ≠ some 47) &&
    (path.length ≤ 1 || (split 47 (path.drop 1)).all fun part =>
      part ≠ [] && part ≠ [46] && part ≠ [46, 46])

def programEntry (entry : Bytes) : Option Bytes :=
  if !pathOpen.isPrefixOf entry || entry.length < 9 ||
      entry.drop (entry.length - 2) ≠ entryEnd || (cutText pathOpen (entry.drop 7)).isSome then
    none
  else
    (cutText argvMark (entry.drop 7)).bind fun r =>
      if (cutText ignoreMark r.2).isNone then none
      else (decodePath r.1).bind fun path => if cleanPath path then some path else none

/-! ## The lines -/

def loadStateKey : Bytes := ascii "LoadState"

def execStartKey : Bytes := ascii "ExecStart"

def userKey : Bytes := ascii "User"

def readFields : List Bytes → List (Bytes × Bytes) → Option (List (Bytes × Bytes))
  | [], fields => some fields
  | line :: rest, fields =>
    (cut 61 line).bind fun field =>
      if [loadStateKey, execStartKey, userKey].all (· ≠ field.1) then none
      else if (fields.lookup field.1).isSome then none
      else readFields rest (fields ++ [field])

def chomp (s : Bytes) : Bytes := if s.getLast? = some 10 then s.dropLast else s

def program (output : Bytes) : Option Bytes :=
  (readFields (split 10 (chomp output)) []).bind fun fields =>
    if fields.length ≠ 3 ∨ fields.lookup loadStateKey ≠ some (ascii "loaded") ∨
        fields.lookup userKey ≠ some [] then none
    else (fields.lookup execStartKey).bind programEntry

/-! ## Rendered units -/

def Plain (b : UInt8) : Prop := 32 ≤ b.toNat ∧ b ≠ 127 ∧ b ≠ 92 ∧ b ≠ 34 ∧ b ≠ 39

instance (b : UInt8) : Decidable (Plain b) := inferInstanceAs (Decidable (_ ∧ _))

def octalDigit (n : ℕ) : UInt8 := .ofNat (48 + n)

inductive EscapeOf (b : UInt8) : Bytes → Prop where
  | letter {k : UInt8} : (k, b) ∈ letters → EscapeOf b [92, k]
  | self : b ∈ [92, 34, 39] → EscapeOf b [92, b]
  | octal : EscapeOf b
      [92, octalDigit (b.toNat / 64), octalDigit (b.toNat / 8 % 8), octalDigit (b.toNat % 8)]
  | hex {high low : UInt8} : hexDigit high = some (b.toNat / 16) →
      hexDigit low = some (b.toNat % 16) → EscapeOf b [92, 120, high, low]

/-- The path `p` written with an escape for every byte that is not plain. -/
inductive Renders : Bytes → Bytes → Prop where
  | nil : Renders [] []
  | raw {b : UInt8} {p text : Bytes} : Plain b → Renders p text → Renders (b :: p) (b :: text)
  | escape {b : UInt8} {code p text : Bytes} : ¬ Plain b → EscapeOf b code → Renders p text →
      Renders (b :: p) (code ++ text)

def entryOf (text argv others : Bytes) : Bytes :=
  pathOpen ++ (text ++ (argvMark ++ (argv ++ (ignoreMark ++ (others ++ entryEnd)))))

def outputsOf (entry : Bytes) : List Bytes :=
  let load := ascii "LoadState=loaded"
  let user := ascii "User="
  let exec := execStartKey ++ 61 :: entry
  let orders := [[load, user, exec], [load, exec, user], [user, load, exec], [user, exec, load],
    [exec, load, user], [exec, user, load]]
  orders.flatMap fun lines => [join 10 lines, join 10 lines ++ [10]]

/-- The path has the delimiter, what is before it decodes to a path that passes the checks, and the
entry does not begin another one. -/
def Misread (p text argv others : Bytes) : Prop :=
  ∃ q rest front back, cutText argvMark p = some (q, rest) ∧
    cutText argvMark text = some (front, back) ∧ decodePath front = some q ∧
    cleanPath q = true ∧ cutText pathOpen ((entryOf text argv others).drop 7) = none

/-! ## Decoding -/

variable {b c : UInt8} {fuel n : ℕ} {p text : Bytes}

theorem hexDigit_octal (h : n < 8) : hexDigit (octalDigit n) = some n := by
  interval_cases n <;> rfl

theorem toNat_octalDigit (h : n < 8) : (octalDigit n).toNat = 48 + n := by
  rw [octalDigit, UInt8.toNat_ofNat']
  omega

theorem le_of_hexDigit {d : ℕ} (h : hexDigit c = some d) : 48 ≤ c.toNat := by
  rw [hexDigit] at h
  split_ifs at h with h1 h2 h3
  · exact UInt8.le_iff_toNat_le.1 h1.1
  · have := UInt8.le_iff_toNat_le.1 h2.1
    exact Nat.le_trans (by decide) this
  · have := UInt8.le_iff_toNat_le.1 h3.1
    exact Nat.le_trans (by decide) this

theorem letter_lookup {k : UInt8} (h : (k, b) ∈ letters) :
    97 ≤ k.toNat ∧ letters.lookup k = some b := by
  have hall : letters.all (fun e => 97 ≤ e.1.toNat && letters.lookup e.1 = some e.2) = true := by
    decide
  have hkb := all_eq_true.1 hall (k, b) h
  rwa [Bool.and_eq_true, decide_eq_true_iff, decide_eq_true_iff] at hkb

theorem visible_escape {code : Bytes} (h : EscapeOf b code) : ∀ c ∈ code, 33 ≤ c.toNat := by
  have hb := b.toNat_lt
  have hback : 33 ≤ (92 : UInt8).toNat := by decide
  cases h with
  | letter hk =>
    have hlow := (letter_lookup hk).1
    simp only [forall_mem_cons, not_mem_nil, false_implies, implies_true, and_true]
    exact ⟨hback, by omega⟩
  | self hself =>
    simp only [forall_mem_cons, not_mem_nil, false_implies, implies_true, and_true]
    refine ⟨hback, ?_⟩
    simp only [mem_cons, not_mem_nil, or_false] at hself
    rcases hself with rfl | rfl | rfl <;> decide
  | octal =>
    simp only [forall_mem_cons, not_mem_nil, false_implies, implies_true, and_true]
    rw [toNat_octalDigit (by omega), toNat_octalDigit (by omega), toNat_octalDigit (by omega)]
    exact ⟨hback, by omega, by omega, by omega⟩
  | hex hhigh hlow =>
    have hhigh' := le_of_hexDigit hhigh
    have hlow' := le_of_hexDigit hlow
    simp only [forall_mem_cons, not_mem_nil, false_implies, implies_true, and_true]
    exact ⟨hback, by decide, by omega, by omega⟩

theorem unescape_octal (h : n < 4) (rest : Bytes) :
    unescape (octalDigit n) rest = (number 8 3 (octalDigit n :: rest) 0).bind fun r =>
      if 255 < r.1 then none else some ([.ofNat r.1], r.2) := by
  interval_cases n <;> rfl

theorem number_cons {base d value : ℕ} {s : Bytes} (h : hexDigit c = some d)
    (hd : d < base) : number base (n + 1) (c :: s) value = number base n s (value * base + d) := by
  rw [number, h, Option.bind_some, if_pos hd]

theorem unescape_escape {code : Bytes} (h : EscapeOf b code) : ∃ c rest, code = 92 :: c :: rest ∧
      ∀ text r, unescape c (rest ++ text) = some r → r = ([b], text) := by
  have hb := b.toNat_lt
  cases h with
  | @letter k hk =>
    refine ⟨k, [], rfl, fun text r hr => ?_⟩
    obtain ⟨hlow, hlookup⟩ := letter_lookup hk
    have hquote : ¬ (k = 92 ∨ k = 34) := by
      rintro (rfl | rfl) <;> revert hlow <;> decide
    rw [unescape, if_neg hquote, hlookup] at hr
    exact (Option.some.inj hr).symm
  | self hself =>
    refine ⟨b, [], rfl, fun text r hr => ?_⟩
    simp only [mem_cons, not_mem_nil, or_false] at hself
    rcases hself with rfl | rfl | rfl
    · exact (Option.some.inj hr).symm
    · exact (Option.some.inj hr).symm
    · cases hr
  | octal =>
    refine ⟨_, _, rfl, fun text r hr => ?_⟩
    rw [unescape_octal (by omega), cons_append, cons_append, nil_append,
      number_cons (hexDigit_octal (by omega)) (by omega),
      number_cons (hexDigit_octal (by omega)) (by omega),
      number_cons (hexDigit_octal (by omega)) (by omega), number, Option.bind_some] at hr
    have hvalue : ((0 * 8 + b.toNat / 64) * 8 + b.toNat / 8 % 8) * 8 + b.toNat % 8 = b.toNat := by
      omega
    rw [hvalue, if_neg (by omega), UInt8.ofNat_toNat] at hr
    exact (Option.some.inj hr).symm
  | @hex high low hhigh hlow =>
    refine ⟨120, [high, low], rfl, fun text r hr => ?_⟩
    have hhex : unescape 120 ([high, low] ++ text) =
        (number 16 2 (high :: low :: text) 0).map fun r => ([.ofNat r.1], r.2) := rfl
    rw [hhex, number_cons hhigh (by omega), number_cons hlow (by omega), number,
      Option.map_some] at hr
    have hvalue : (0 * 16 + b.toNat / 16) * 16 + b.toNat % 16 = b.toNat := by omega
    rw [hvalue, UInt8.ofNat_toNat] at hr
    exact (Option.some.inj hr).symm

theorem decodeFrom_of_ne {rest : Bytes} (h : b ≠ 92) :
    decodeFrom (fuel + 1) (b :: rest) = (decodeFrom fuel rest).map (b :: ·) := by
  rw [decodeFrom.eq_def]
  exact if_pos h

theorem decodeFrom_escape {rest : Bytes} : decodeFrom (fuel + 1) (92 :: c :: rest) =
      (unescape c rest).bind fun r => (decodeFrom fuel r.2).map (r.1 ++ ·) := rfl

theorem decodeFrom_renders (h : Renders p text) {q : Bytes}
    (hq : decodeFrom fuel text = some q) : q = p := by
  induction h generalizing fuel q with
  | nil =>
    cases fuel <;> exact (Option.some.inj hq).symm
  | raw hplain hp ih =>
    cases fuel with
    | zero => cases hq
    | succ fuel =>
      rw [decodeFrom_of_ne hplain.2.2.1] at hq
      obtain ⟨q', hq', rfl⟩ := Option.map_eq_some_iff.1 hq
      rw [ih hq']
  | escape hplain hcode hp ih =>
    obtain ⟨c, rest, rfl, hescape⟩ := unescape_escape hcode
    cases fuel with
    | zero => cases hq
    | succ fuel =>
      rw [cons_append, cons_append, decodeFrom_escape] at hq
      obtain ⟨r, hr, hrest⟩ := Option.bind_eq_some_iff.1 hq
      rw [hescape _ r hr] at hrest
      obtain ⟨q', hq', rfl⟩ := Option.map_eq_some_iff.1 hrest
      rw [ih hq']
      rfl

/-! ## The delimiter -/

theorem argvMark_ne_nil : argvMark ≠ [] := by decide

theorem argvMark_unbordered : Unbordered argvMark := by decide

theorem argvMark_plain : ∀ c ∈ argvMark, Plain c := by
  have hall : argvMark.all (fun c => Plain c) = true := by decide
  exact fun c hc => of_decide_eq_true (all_eq_true.1 hall c hc)

theorem plain_start_iff {w : Bytes} (h : Renders p text) (hw : ∀ c ∈ w, Plain c) :
    w <+: text ↔ w <+: p := by
  induction w generalizing p text with
  | nil => exact ⟨fun _ => nil_prefix, fun _ => nil_prefix⟩
  | cons c w ih =>
    have hc : Plain c := hw c mem_cons_self
    cases h with
    | nil => rfl
    | raw hplain hp =>
      rw [cons_prefix_cons, cons_prefix_cons, ih hp fun x hx => hw x (mem_cons_of_mem c hx)]
    | @escape b code p text hplain hcode hp =>
      obtain ⟨d, rest, rfl, -⟩ := unescape_escape hcode
      refine iff_of_false (fun hpre => ?_) fun hpre => ?_
      · exact hc.2.2.1 (cons_prefix_cons.1 hpre).1
      · exact hplain ((cons_prefix_cons.1 hpre).1 ▸ hc)

theorem cutText_renders (h : Renders p text) :
    (cutText argvMark text = none ∧ cutText argvMark p = none) ∨
      ∃ q rest front back, cutText argvMark p = some (q, rest) ∧
        cutText argvMark text = some (front, back) ∧ Renders q front := by
  induction h with
  | nil => exact .inl ⟨rfl, rfl⟩
  | @raw b p text hplain hp ih =>
    by_cases hstart : argvMark <+: b :: p
    · have hstart' : argvMark <+: b :: text :=
        (plain_start_iff (.raw hplain hp) argvMark_plain).2 hstart
      exact .inr ⟨_, _, _, _, cutText_of_start argvMark_ne_nil hstart,
        cutText_of_start argvMark_ne_nil hstart', .nil⟩
    · have hstart' : ¬ argvMark <+: b :: text := fun hpre =>
        hstart ((plain_start_iff (.raw hplain hp) argvMark_plain).1 hpre)
      rw [cutText_cons_of_not hstart, cutText_cons_of_not hstart']
      rcases ih with ⟨htext, hpath⟩ | ⟨q, rest, front, back, hpath, htext, hq⟩
      · rw [htext, hpath]
        exact .inl ⟨rfl, rfl⟩
      · rw [htext, hpath]
        exact .inr ⟨_, _, _, _, rfl, rfl, .raw hplain hq⟩
  | @escape b code p text hplain hcode hp ih =>
    have hstart : ¬ argvMark <+: b :: p := by
      intro hpre
      have hb : b = 32 := ((cons_prefix_cons.1 hpre).1).symm
      exact hplain (hb ▸ by decide)
    have hskip : ∀ c ∈ code, argvMark.head? ≠ some c := by
      intro c hc heq
      have hvisible := visible_escape hcode c hc
      have h32 : c = 32 := (Option.some.inj heq).symm
      rw [h32] at hvisible
      exact absurd hvisible (by decide)
    rw [cutText_cons_of_not hstart, cutText_append_of_no_start argvMark_ne_nil hskip]
    rcases ih with ⟨htext, hpath⟩ | ⟨q, rest, front, back, hpath, htext, hq⟩
    · rw [htext, hpath]
      exact .inl ⟨rfl, rfl⟩
    · rw [htext, hpath]
      exact .inr ⟨_, _, _, _, rfl, rfl, .escape hplain hcode hq⟩

/-! ## The entry of a unit -/

def entryRest (argv others : Bytes) : Bytes :=
  argvMark ++ (argv ++ (ignoreMark ++ (others ++ entryEnd)))

theorem drop_entryOf (text argv others : Bytes) :
    (entryOf text argv others).drop 7 = text ++ entryRest argv others := rfl

theorem programEntry_entryOf (text argv others : Bytes) : programEntry (entryOf text argv others) =
      if (cutText pathOpen (text ++ entryRest argv others)).isSome then none
      else (cutText argvMark (text ++ entryRest argv others)).bind fun r =>
        if (cutText ignoreMark r.2).isNone then none
        else (decodePath r.1).bind fun path => if cleanPath path then some path else none := by
  have hopen : pathOpen.isPrefixOf (entryOf text argv others) = true :=
    begins_iff.2 (prefix_append _ _)
  have hshape : entryOf text argv others =
      (pathOpen ++ (text ++ (argvMark ++ (argv ++ (ignoreMark ++ others))))) ++ entryEnd := by
    simp only [entryOf, append_assoc]
  have hlen : 9 ≤ (entryOf text argv others).length := by
    have hparts : pathOpen.length = 7 ∧ entryEnd.length = 2 := ⟨rfl, rfl⟩
    rw [hshape, length_append, length_append]
    omega
  have hend : (entryOf text argv others).drop ((entryOf text argv others).length - 2) =
      entryEnd := by
    have htwo : entryEnd.length = 2 := rfl
    rw [hshape, length_append, htwo, Nat.add_sub_cancel, drop_left]
  rw [programEntry, drop_entryOf, hopen, hend]
  simp only [Bool.not_true, Bool.false_or, ne_eq, not_true_eq_false, decide_false,
    Bool.or_false, Nat.not_lt.2 hlen]

theorem ignoreMark_found (front argv others : Bytes) :
    (cutText ignoreMark (front ++ (argv ++ (ignoreMark ++ (others ++ entryEnd))))).isNone =
      false := by
  have hinfix : ignoreMark <:+: front ++ (argv ++ (ignoreMark ++ (others ++ entryEnd))) :=
    ⟨front ++ argv, others ++ entryEnd, by simp only [append_assoc]⟩
  have hsome := cutText_isSome_of_infix (show ignoreMark ≠ [] by decide) hinfix
  rw [Option.isNone_eq_false_iff]
  exact hsome

def taken (text : Bytes) : Bytes := ((cutText argvMark text).map Prod.fst).getD text

theorem programEntry_eq_some_iff {argv others path : Bytes} :
    programEntry (entryOf text argv others) = some path ↔
      cutText pathOpen (text ++ entryRest argv others) = none ∧
        decodePath (taken text) = some path ∧ cleanPath path = true := by
  have hcut : ∃ back, cutText argvMark (text ++ entryRest argv others) =
      some (taken text, back) ∧ (cutText ignoreMark back).isNone = false := by
    cases htext : cutText argvMark text with
    | none =>
      refine ⟨_, ?_, ignoreMark_found [] argv others⟩
      rw [taken, htext]
      exact Unbordered.cutText_append argvMark_ne_nil argvMark_unbordered htext
    | some r =>
      refine ⟨r.2 ++ entryRest argv others, ?_, ?_⟩
      · rw [taken, htext]
        exact cutText_append_of_some htext
      · have hassoc : r.2 ++ entryRest argv others =
            (r.2 ++ argvMark) ++ (argv ++ (ignoreMark ++ (others ++ entryEnd))) := by
          rw [entryRest, append_assoc]
        rw [hassoc]
        exact ignoreMark_found _ argv others
  obtain ⟨back, hcut, hignore⟩ := hcut
  rw [programEntry_entryOf, hcut, Option.bind_some]
  simp only [hignore, Bool.false_eq_true, if_false]
  cases hopen : cutText pathOpen (text ++ entryRest argv others) with
  | some r => simp
  | none =>
    simp only [Option.isSome_none, Bool.false_eq_true, if_false, true_and]
    cases hdecode : decodePath (taken text) with
    | none => simp
    | some q =>
      by_cases hclean : cleanPath q = true
      · rw [Option.bind_some, if_pos hclean, Option.some.injEq]
        exact ⟨fun heq => ⟨heq, heq ▸ hclean⟩, fun hand => hand.1⟩
      · rw [Option.bind_some, if_neg hclean]
        refine ⟨fun heq => (nomatch heq), ?_⟩
        rintro ⟨heq, hpath⟩
        cases heq
        exact absurd hpath hclean

/-! ## The lines of a unit -/

theorem cut_append {sep : UInt8} {key value : Bytes} (h : sep ∉ key) :
    cut sep (key ++ sep :: value) = some (key, value) := by
  have hall : ∀ b ∈ key, decide (b ≠ sep) = true := by
    intro b hb
    rw [decide_eq_true_iff]
    rintro rfl
    exact h hb
  rw [cut, if_pos (by simp), takeWhile_append_of_pos hall, dropWhile_append_of_pos hall]
  simp

theorem newline_not_mem_entryOf {argv others : Bytes} (h : Renders p text)
    (hargv : 10 ∉ argv) (hothers : 10 ∉ others) : 10 ∉ entryOf text argv others := by
  have htext : (10 : UInt8) ∉ text := by
    clear hargv hothers
    induction h with
    | nil => exact not_mem_nil
    | raw hplain hp ih =>
      rw [mem_cons, not_or]
      refine ⟨?_, ih⟩
      rintro rfl
      exact absurd hplain.1 (by decide)
    | escape hplain hcode hp ih =>
      rw [mem_append, not_or]
      exact ⟨fun hmem => absurd (visible_escape hcode 10 hmem) (by decide), ih⟩
  have hmarks : 10 ∉ pathOpen ∧ 10 ∉ argvMark ∧ 10 ∉ ignoreMark ∧ 10 ∉ entryEnd := by decide
  simp only [entryOf, mem_append, not_or]
  exact ⟨hmarks.1, htext, hmarks.2.1, hargv, hmarks.2.2.1, hothers, hmarks.2.2.2⟩

theorem chomp_concat (s : Bytes) : chomp (s ++ [10]) = s := by
  rw [chomp, List.getLast?_concat, if_pos rfl, dropLast_concat]

theorem chomp_join {a b c : Bytes} (hne : c ≠ []) (hc : 10 ∉ c) :
    chomp (join 10 [a, b, c]) = join 10 [a, b, c] := by
  have hshape : join 10 [a, b, c] = (a ++ 10 :: (b ++ [10])) ++ c := by
    simp [join]
  refine if_neg fun hlast => hc ?_
  rw [hshape, List.getLast?_append_of_ne_nil _ hne] at hlast
  exact mem_of_getLast? hlast

theorem split_output {a b c output : Bytes} (ha : 10 ∉ a) (hb : 10 ∉ b) (hc : 10 ∉ c)
    (hne : c ≠ []) (hout : output ∈ [join 10 [a, b, c], join 10 [a, b, c] ++ [10]]) :
    split 10 (chomp output) = [a, b, c] := by
  have hlines : split 10 (join 10 [a, b, c]) = [a, b, c] := by
    rw [split_join (by simp), pieces_eq_self]
    simp only [forall_mem_cons, not_mem_nil, false_implies, implies_true, and_true]
    exact ⟨ha, hb, hc⟩
  rcases mem_cons.1 hout with rfl | hout
  · rw [chomp_join hne hc, hlines]
  · rw [mem_singleton.1 hout, chomp_concat, hlines]

theorem program_outputsOf {entry output : Bytes} (hentry : 10 ∉ entry)
    (hout : output ∈ outputsOf entry) : program output = programEntry entry := by
  have hload : cut 61 (ascii "LoadState=loaded") = some (loadStateKey, ascii "loaded") := by decide
  have huser : cut 61 (ascii "User=") = some (userKey, []) := by decide
  have hexec : cut 61 (execStartKey ++ 61 :: entry) = some (execStartKey, entry) :=
    cut_append (by decide)
  have hload_line : 10 ∉ ascii "LoadState=loaded" := by decide
  have huser_line : 10 ∉ ascii "User=" := by decide
  have hexec_line : 10 ∉ execStartKey ++ 61 :: entry := by
    rw [mem_append, mem_cons, not_or, not_or]
    exact ⟨by decide, by decide, hentry⟩
  have hexec_ne : execStartKey ++ 61 :: entry ≠ [] := by simp
  simp only [outputsOf, flatMap_cons, flatMap_nil, append_nil, mem_append] at hout
  rw [program]
  rcases hout with hout | hout | hout | hout | hout | hout
  on_goal 1 => rw [split_output hload_line huser_line hexec_line hexec_ne hout]
  on_goal 2 => rw [split_output hload_line hexec_line huser_line (by decide) hout]
  on_goal 3 => rw [split_output huser_line hload_line hexec_line hexec_ne hout]
  on_goal 4 => rw [split_output huser_line hexec_line hload_line (by decide) hout]
  on_goal 5 => rw [split_output hexec_line hload_line huser_line (by decide) hout]
  on_goal 6 => rw [split_output hexec_line huser_line hload_line (by decide) hout]
  all_goals
    simp only [readFields, hload, huser, hexec, Option.bind_some]
    rfl

/-! ## What is read -/

def components (path : Bytes) : List Bytes :=
  if path.drop 1 = [] then [] else split 47 (path.drop 1)

structure Proper (path : Bytes) : Prop where
  absolute : path.head? = some 47
  parts : ∀ part ∈ components path, part ≠ [] ∧ part ≠ [46] ∧ part ≠ [46, 46]
  bytes : 0 ∉ path ∧ 13 ∉ path ∧ 10 ∉ path

theorem proper_of_cleanPath {path : Bytes} (h : cleanPath path = true) : Proper path := by
  rw [cleanPath, Bool.and_eq_true, Bool.and_eq_true, Bool.and_eq_true] at h
  obtain ⟨⟨⟨habsolute, hbytes⟩, -⟩, hparts⟩ := h
  refine ⟨of_decide_eq_true habsolute, fun part hpart => ?_, ?_⟩
  · rw [components] at hpart
    split_ifs at hpart with hroot
    · cases hpart
    · have hlen : ¬ path.length ≤ 1 := fun hle => hroot (drop_eq_nil_of_le hle)
      simp only [hlen, decide_false, Bool.false_or, all_eq_true] at hparts
      have hok := hparts part hpart
      simp only [Bool.and_eq_true, decide_eq_true_eq] at hok
      exact ⟨hok.1.1, hok.1.2, hok.2⟩
  · simp only [Bool.not_eq_true', any_eq_false, decide_eq_true_eq] at hbytes
    exact ⟨fun hmem => hbytes 0 hmem (by decide), fun hmem => hbytes 13 hmem (by decide),
      fun hmem => hbytes 10 hmem (by decide)⟩

/-- A path that is read is the path rendered, and a proper one, exactly if the delimiter in the path
does not make it be misread. -/
theorem program_reads_iff {p text argv others output : Bytes} (hp : Renders p text)
    (hargv : 10 ∉ argv) (hothers : 10 ∉ others)
    (hout : output ∈ outputsOf (entryOf text argv others)) :
    (∀ path, program output = some path → path = p ∧ Proper path) ↔
      ¬ Misread p text argv others := by
  rw [program_outputsOf (newline_not_mem_entryOf hp hargv hothers) hout]
  constructor
  · rintro hreads ⟨q, rest, front, back, hpath, htext, hdecode, hclean, hopen⟩
    have htaken : taken text = front := by rw [taken, htext]; rfl
    have hq : programEntry (entryOf text argv others) = some q :=
      programEntry_eq_some_iff.2 ⟨hopen, by rw [htaken, hdecode], hclean⟩
    -- what is before the delimiter is shorter than the path
    have hlen := congrArg List.length (eq_of_cutText hpath)
    have hmark : argvMark.length = 10 := rfl
    rw [← (hreads q hq).1, length_append, length_append, hmark] at hlen
    omega
  · intro hmisread path hpath
    obtain ⟨hopen, hdecode, hclean⟩ := programEntry_eq_some_iff.1 hpath
    refine ⟨?_, proper_of_cleanPath hclean⟩
    rcases cutText_renders hp with ⟨htext, -⟩ | ⟨q, rest, front, back, hq, htext, hrenders⟩
    · have htaken : taken text = text := by rw [taken, htext]; rfl
      rw [htaken] at hdecode
      exact decodeFrom_renders hp hdecode
    · have htaken : taken text = front := by rw [taken, htext]; rfl
      rw [htaken] at hdecode
      obtain rfl : path = q := decodeFrom_renders hrenders hdecode
      exact absurd ⟨path, rest, front, back, hq, htext, hdecode, hclean, hopen⟩ hmisread

theorem renders_plain (h : ∀ b ∈ p, Plain b) : Renders p p := by
  induction p with
  | nil => exact .nil
  | cons b p ih =>
    exact .raw (h b mem_cons_self) (ih fun c hc => h c (mem_cons_of_mem b hc))

theorem renders_of_all (h : p.all (fun b => Plain b) = true) : Renders p p :=
  renders_plain fun b hb => of_decide_eq_true (all_eq_true.1 h b hb)

def plainOutput : Bytes :=
  join 10 [ascii "LoadState=loaded", ascii "User=",
    execStartKey ++ 61 :: entryOf (ascii "/usr/bin/app") (ascii "/usr/bin/app") (ascii "pid=0")]

theorem program_reads_iff_plain : plainOutput ∈
        outputsOf (entryOf (ascii "/usr/bin/app") (ascii "/usr/bin/app") (ascii "pid=0")) ∧
      ((∀ path, program plainOutput = some path → path = ascii "/usr/bin/app" ∧ Proper path) ↔
        ¬ Misread (ascii "/usr/bin/app") (ascii "/usr/bin/app") (ascii "/usr/bin/app")
          (ascii "pid=0")) :=
  ⟨mem_cons_self, program_reads_iff (renders_of_all (by decide)) (by decide) (by decide)
    mem_cons_self⟩

def delimited : Bytes := ascii "/bin/x ; argv[]=y"

/-- The unit runs `/bin/x ; argv[]=y`; the path read is `/bin/x`. -/
theorem delimited_misread : Renders delimited delimited ∧
      program (join 10 [ascii "LoadState=loaded", ascii "User=",
        execStartKey ++ 61 :: entryOf delimited delimited (ascii "pid=0")]) =
          some (ascii "/bin/x") ∧
      ascii "/bin/x" ≠ delimited :=
  ⟨renders_of_all (by decide), by decide +kernel, by decide⟩

end Linux.Unit
