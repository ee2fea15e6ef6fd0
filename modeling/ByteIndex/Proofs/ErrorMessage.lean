import ByteIndex.Proofs.CallSimulation
import ByteIndex.Proofs.SelfDelimiting
/-!
# Messages tell errors apart

A message begins in a way that shows the cause of its error, and the data behind it is written so that
it can be read back; two messages are the same only for one and the same error. A warning carries nothing
but the message, so the log of a rejected call still names the handles, lengths or argument at fault.
-/
namespace ByteIndex

variable {rest others : String}

private theorem Handle.describe_append_inj {first second : Handle}
    (h : first.describe ++ rest = second.describe ++ others) : first = second ∧ rest = others := by
  simp only [describe, String.append_assoc] at h
  obtain ⟨hraw, hrest⟩ := Text.hex_append_inj ((String.append_right_inj _).mp h)
  have hword (handle : Handle) : handle.raw.toNat % 16 ^ 16 = handle.raw.toNat :=
    Nat.mod_eq_of_lt handle.raw.toNat_lt
  rw [hword, hword] at hraw
  exact ⟨eq_of_raw (UInt64.toNat_inj.mp hraw), hrest⟩

private theorem Handle.describe_inj {first second : Handle} (h : first.describe = second.describe) :
    first = second :=
  (describe_append_inj (congrArg (· ++ "") h)).1

namespace Error

variable {first second : Error}

/-- How the message of an error begins, by its status. -/
def openings : List (List Char × Status) :=
  [("invalid handle ".toList, .invalidHandle), ("stale handle ".toList, .staleHandle),
    ("cursor ".toList, .foreignCursor), ("key of ".toList, .keyTooLong),
    ("out of memory ".toList, .outOfMemory), ("null pointer ".toList, .nullPointer),
    ("invalid configuration: ".toList, .invalidConfig)]

private theorem status_eq_of_openings : ∀ first ∈ openings, ∀ second ∈ openings,
    first.1 <+: second.1 → first.2 = second.2 := by
  decide

private theorem exists_opening (error : Error) :
    ∃ opening ∈ openings, opening.2 = error.status ∧ opening.1 <+: error.message.toList := by
  unfold message
  cases error with
  | invalidHandle handle =>
    exact ⟨("invalid handle ".toList, .invalidHandle), by decide, rfl, by simp⟩
  | staleHandle handle =>
    exact ⟨("stale handle ".toList, .staleHandle), by decide, rfl, by simp⟩
  | foreignCursor cursor owner given =>
    exact ⟨("cursor ".toList, .foreignCursor), by decide, rfl, by simp⟩
  | keyTooLong length limit =>
    exact ⟨("key of ".toList, .keyTooLong), by decide, rfl, by simp⟩
  | outOfMemory bytes =>
    exact ⟨("out of memory ".toList, .outOfMemory), by decide, rfl, by simp⟩
  | nullPointer argument =>
    exact ⟨("null pointer ".toList, .nullPointer), by decide, rfl, by simp⟩
  | invalidConfig reason =>
    exact ⟨("invalid configuration: ".toList, .invalidConfig), by decide, rfl, by simp⟩

private theorem status_of_message (h : first.message = second.message) :
    first.status = second.status := by
  obtain ⟨opening, hopening, hstatus, hbegins⟩ := first.exists_opening
  obtain ⟨other, hother, hsame, hbegins'⟩ := second.exists_opening
  rw [h] at hbegins
  rw [← hstatus, ← hsame]
  rcases List.prefix_or_prefix_of_prefix hbegins hbegins' with hshorter | hshorter
  · exact status_eq_of_openings opening hopening other hother hshorter
  · exact (status_eq_of_openings other hother opening hopening hshorter).symm

theorem eq_of_message (h : first.message = second.message) : first = second := by
  have hstatus := status_of_message h
  unfold message at h
  match first, second, hstatus with
  | .invalidHandle handle, .invalidHandle other, _ =>
    rw [Handle.describe_inj ((String.append_right_inj _).mp h)]
  | .staleHandle handle, .staleHandle other, _ =>
    simp only [String.append_assoc] at h
    rw [(Handle.describe_append_inj ((String.append_right_inj _).mp h)).1]
  | .foreignCursor cursor owner given, .foreignCursor cursor' owner' given', _ =>
    simp only [String.append_assoc] at h
    obtain ⟨rfl, howner⟩ := Handle.describe_append_inj ((String.append_right_inj _).mp h)
    obtain ⟨rfl, hgiven⟩ := Handle.describe_append_inj ((String.append_right_inj _).mp howner)
    rw [Handle.describe_inj ((String.append_right_inj _).mp hgiven)]
  | .keyTooLong length limit, .keyTooLong length' limit', _ =>
    simp only [String.append_assoc] at h
    have hends (rest : String) : Text.EndsNumeral (" bytes exceeds limit of " ++ rest) :=
      Text.EndsNumeral.append (by exact rfl) rest
    obtain ⟨rfl, hlimit⟩ :=
      Text.selfDelimiting_decimal (hends _) (hends _) ((String.append_right_inj _).mp h)
    obtain ⟨rfl, _⟩ := Text.selfDelimiting_decimal (by exact rfl) (by exact rfl)
      ((String.append_right_inj _).mp hlimit)
    rfl
  | .outOfMemory bytes, .outOfMemory bytes', _ =>
    simp only [String.append_assoc] at h
    obtain ⟨rfl, _⟩ := Text.selfDelimiting_decimal (by exact rfl) (by exact rfl)
      ((String.append_right_inj _).mp h)
    rfl
  | .nullPointer argument, .nullPointer argument', _ =>
    rw [(String.append_right_inj _).mp h]
  | .invalidConfig reason, .invalidConfig reason', _ =>
    rw [(String.append_right_inj _).mp h]

end Error

namespace Boundary

/-- What the warnings among events give as the cause of a rejection. -/
def causes (events : List Event) : List Event.Field :=
  (warnings events).filterMap fun warning => warning.2.lookup "error"

private theorem Call.causes_eq (call : Call) (catalog : Catalog) :
    causes (call.perform catalog).events =
      (call.error? catalog).toList.map fun error => .text error.message := by
  rw [causes, call.warnings_eq]
  cases call.error? catalog <;> rfl

/-- Two errors have the same message only if they are the same, so errors of different codes never
share one. The cause that a call leaves in the log, if any, tells the error it met with all its data. -/
theorem message_determines_error (first second : Error) :
    (first.message = second.message ↔ first = second) ∧
    (first.status.code ≠ second.status.code → first.message ≠ second.message) ∧
    ∀ (call other : Call) (catalog later : Catalog),
      causes (call.perform catalog).events = causes (other.perform later).events ↔
        call.error? catalog = other.error? later := by
  refine ⟨⟨Error.eq_of_message, congrArg Error.message⟩, ?_, ?_⟩
  · intro hcode h
    exact hcode (congrArg Status.code (Error.status_of_message h))
  · intro call other catalog later
    have hinjective : (fun error : Error => Event.Field.text error.message).Injective :=
      fun _ _ h => Error.eq_of_message (Event.Field.text.inj h)
    rw [call.causes_eq, other.causes_eq, List.map_inj_right hinjective]
    refine ⟨fun h => ?_, congrArg Option.toList⟩
    simpa only [Option.head?_toList] using congrArg List.head? h

end Boundary
end ByteIndex
