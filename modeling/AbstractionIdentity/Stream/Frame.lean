import AbstractionIdentity.Text.Bytes
import Mathlib.Tactic.SplitIfs

/-!
# Streams of self-delimiting frames

A frame is a big-endian 32-bit header and a body whose length, `size`, the header gives. No frame is
the beginning of another, so a stream of whole frames is read back in one way only (`append_inj`),
also from its front (`frames_of_flat`).
-/

namespace Stream

open Text

/-- The four bytes of a word, the most significant first. -/
def word (w : UInt32) : Bytes :=
  [.ofNat (w.toNat / 2 ^ 24), .ofNat (w.toNat / 2 ^ 16), .ofNat (w.toNat / 2 ^ 8),
    .ofNat w.toNat]

def unword : Bytes → UInt32
  | a :: b :: c :: d :: _ =>
    .ofNat (a.toNat * 2 ^ 24 + b.toNat * 2 ^ 16 + c.toNat * 2 ^ 8 + d.toNat)
  | _ => 0

@[simp] theorem length_word (w : UInt32) : (word w).length = 4 := rfl

@[simp] theorem unword_word_append (w : UInt32) (r : Bytes) : unword (word w ++ r) = w := by
  have hw : w.toNat < 2 ^ 32 := w.toNat_lt
  apply UInt32.toNat_inj.1
  simp only [word, List.cons_append, List.nil_append, unword, UInt8.toNat_ofNat',
    UInt32.toNat_ofNat']
  omega

@[simp] theorem unword_word (w : UInt32) : unword (word w) = w := by
  simpa using unword_word_append w []

theorem word_unword {s : Bytes} (h : s.length = 4) : word (unword s) = s := by
  match s, h with
  | [a, b, c, d], _ =>
    have ha := a.toNat_lt
    have hb := b.toNat_lt
    have hc := c.toNat_lt
    have hd := d.toNat_lt
    simp only [word, unword, UInt32.toNat_ofNat', List.cons.injEq, and_true]
    refine ⟨?_, ?_, ?_, ?_⟩ <;>
      (apply UInt8.toNat_inj.1; rw [UInt8.toNat_ofNat']; omega)

theorem word_injective {v w : UInt32} (h : word v = word w) : v = w := by
  rw [← unword_word v, h, unword_word]

variable {size : UInt32 → ℕ}

structure Frame (size : UInt32 → ℕ) where
  head : UInt32
  body : Bytes
  sized : body.length = size head
  deriving DecidableEq

def Frame.bytes (f : Frame size) : Bytes := word f.head ++ f.body

theorem Frame.length_bytes (f : Frame size) : f.bytes.length = 4 + size f.head := by
  rw [Frame.bytes, List.length_append, length_word, f.sized]

theorem Frame.append_inj {f g : Frame size} {r t : Bytes}
    (h : f.bytes ++ r = g.bytes ++ t) : f = g ∧ r = t := by
  obtain ⟨fhead, fbody, hf⟩ := f
  obtain ⟨ghead, gbody, hg⟩ := g
  simp only [Frame.bytes, List.append_assoc] at h
  obtain ⟨hword, hrest⟩ := List.append_inj h rfl
  obtain rfl := word_injective hword
  obtain ⟨rfl, rfl⟩ := List.append_inj hrest (hf.trans hg.symm)
  exact ⟨rfl, rfl⟩

/-- The stream of the frames, one after another. -/
def flat (fs : List (Frame size)) : Bytes := fs.flatMap Frame.bytes

@[simp] theorem flat_nil : flat ([] : List (Frame size)) = [] := rfl

@[simp] theorem flat_cons (f : Frame size) (fs : List (Frame size)) :
    flat (f :: fs) = f.bytes ++ flat fs := rfl

@[simp] theorem flat_append (fs gs : List (Frame size)) :
    flat (fs ++ gs) = flat fs ++ flat gs := List.flatMap_append

def Incomplete (size : UInt32 → ℕ) (r : Bytes) : Prop := ∀ f : Frame size, ¬ f.bytes <+: r

theorem incomplete_of_length_lt {r : Bytes} (h : r.length < 4) : Incomplete size r := by
  intro f hf
  have hlen := hf.length_le
  rw [f.length_bytes] at hlen
  omega

theorem incomplete_nil : Incomplete size [] := incomplete_of_length_lt (by simp)

theorem incomplete_of_part {f : Frame size} {r : Bytes} (h : r <+: f.bytes)
    (hne : r ≠ f.bytes) : Incomplete size r := by
  intro g hg
  obtain ⟨t, ht⟩ := hg.trans h
  obtain ⟨rfl, -⟩ := Frame.append_inj (ht.trans (List.append_nil f.bytes).symm)
  exact hne (h.eq_of_length_le hg.length_le)

theorem frames_of_flat {fs gs : List (Frame size)} {r : Bytes} (hr : Incomplete size r)
    (h : flat fs <+: flat gs ++ r) : fs <+: gs := by
  induction fs generalizing gs with
  | nil => exact List.nil_prefix
  | cons f fs ih =>
    obtain ⟨t, ht⟩ := h
    rw [flat_cons, List.append_assoc] at ht
    cases gs with
    | nil => exact absurd ⟨flat fs ++ t, ht⟩ (hr f)
    | cons g gs =>
      rw [flat_cons, List.append_assoc] at ht
      obtain ⟨rfl, hrest⟩ := Frame.append_inj ht
      exact List.cons_prefix_cons.2 ⟨rfl, ih ⟨t, hrest⟩⟩

theorem flat_inj_of_length {fs gs : List (Frame size)} {r : Bytes}
    (h : flat fs <+: flat gs ++ r) (hlen : fs.length = gs.length) : fs = gs := by
  induction fs generalizing gs with
  | nil => exact (List.eq_nil_of_length_eq_zero hlen.symm).symm
  | cons f fs ih =>
    cases gs with
    | nil => cases hlen
    | cons g gs =>
      obtain ⟨t, ht⟩ := h
      rw [flat_cons, flat_cons, List.append_assoc, List.append_assoc] at ht
      obtain ⟨rfl, hrest⟩ := Frame.append_inj ht
      rw [ih ⟨t, hrest⟩ (Nat.succ.inj hlen)]

theorem length_eq_of_end {α : Type*} {l m : List α} {x : α} (h : l ++ [x] <+: m ++ [x])
    (hx : x ∉ m) : l.length = m.length := by
  obtain ⟨r, hr⟩ := h
  rw [List.append_assoc] at hr
  have hle : l.length ≤ m.length := by
    have hlen := congrArg List.length hr
    simp only [List.length_append, List.length_singleton] at hlen
    omega
  by_contra hne
  have hget : (m ++ [x])[l.length]? = some x := by
    rw [← hr, List.getElem?_append_right le_rfl]
    simp
  rw [List.getElem?_append_left (by omega)] at hget
  exact hx (List.mem_of_getElem? hget)

end Stream
