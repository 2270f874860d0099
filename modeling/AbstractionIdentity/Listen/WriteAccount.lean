import AbstractionIdentity.Listen.FrameCodec
import AbstractionIdentity.Stream.Device

/-!
# The count of a write

`writeHeadedCount` reports how many bytes of header and frame the writer took. Here the writer is a
device that may report any count; a writer that takes the last byte may report an error with it.
-/

namespace Listen

open Text Stream

variable {σ : Type*}

def drivenCount (d : Device σ FrameWriteErr) (header : UInt32) (frame : Bytes) (s : σ) :
    Driven σ FrameWriteErr :=
  driveParts d .shortWrite (headed header frame) ⟨s, 0, none, []⟩

def headedBytes (header : UInt32) (frame : Bytes) : Bytes := word header ++ frame

theorem running_start (total : Bytes) (s : σ) :
    Running total (⟨s, 0, none, []⟩ : Driven σ FrameWriteErr) :=
  ⟨⟨trivial, rfl, fun _ h => (nomatch h)⟩, rfl, fun _ h => (nomatch h)⟩

theorem headed_start (header : UInt32) (frame : Bytes) (s : σ) : (headed header frame).flatten <+:
      (headedBytes header frame).drop (⟨s, 0, none, []⟩ : Driven σ FrameWriteErr).written := by
  rw [flatten_headed]
  exact List.prefix_rfl

/-- For every device: the buffers follow one another, the count is the sum of the reports, and the
error is nil exactly if everything was counted and no write reported one; a truthful device has
accepted the counted beginning. -/
theorem drivenCount_account (d : Device σ FrameWriteErr) (header : UInt32) (frame : Bytes) (s : σ) :
    Contiguous (headedBytes header frame) 0 (drivenCount d header frame s).offers ∧
      (∀ o ∈ (drivenCount d header frame s).offers.dropLast, o.Took) ∧
      (drivenCount d header frame s).written = takenAll (drivenCount d header frame s).offers ∧
      (drivenCount d header frame s).written ≤ (headedBytes header frame).length ∧
      ((drivenCount d header frame s).err = none ↔
        (drivenCount d header frame s).written = (headedBytes header frame).length ∧
          ∀ o ∈ (drivenCount d header frame s).offers, o.err = none) ∧
      ∀ accepted : σ → Bytes, d.Truthful accepted →
        accepted (drivenCount d header frame s).state = accepted s ++
          (headedBytes header frame).take (drivenCount d header frame s).written := by
  have hstart := running_start (headedBytes header frame) s
  have hparts := headed_start header frame s
  have htruth : ∀ accepted : σ → Bytes, d.Truthful accepted →
      accepted (drivenCount d header frame s).state = accepted s ++
        (headedBytes header frame).take (drivenCount d header frame s).written :=
    fun accepted hd => driveParts_truthful hd hstart hparts (List.append_nil (accepted s)).symm
  rcases @driveParts_account σ FrameWriteErr d .shortWrite _ _ _ hstart hparts with
    ⟨hrun, hwritten⟩ | hstop
  · rw [flatten_headed, Nat.zero_add] at hwritten
    exact ⟨hrun.contiguous, hrun.earlier, hrun.written, hwritten.le,
      iff_of_true hrun.err ⟨hwritten, fun o ho => (hrun.took o ho).err⟩, htruth⟩
  · refine ⟨hstop.contiguous, hstop.earlier, hstop.written, hstop.bound,
      iff_of_false hstop.err ?_, htruth⟩
    rintro ⟨hwritten, hnone⟩
    rcases hstop.reason with hless | ⟨o, ho, herr⟩
    · exact absurd hwritten hless.ne
    · exact herr (hnone o ho)

def takesAndFails : Device Unit FrameWriteErr := fun _ part =>
  ((part.length, some (.writer 0)), ())

/-- The count is the whole length, and the error is not nil. -/
theorem whole_count_with_error :
    (drivenCount takesAndFails 1 [65] ()).written = (headedBytes 1 [65]).length ∧
      (drivenCount takesAndFails 1 [65] ()).err ≠ none := by
  decide

theorem drivenCount_codec (w : Writer FrameWriteErr) (header : UInt32) (frame out : Bytes) :
    (drivenCount (Writer.device w) header frame out).sunk = writeHeadedCount w header frame out :=
  sunk_driveParts

end Listen
