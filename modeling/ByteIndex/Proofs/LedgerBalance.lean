import ByteIndex.Proofs.TableLedger
import Mathlib.Data.List.Nodup
/-!
# Balanced ledgers

The ledger of a table issues a handle once at most, and destroys it once at most and only after that.
What it has issued and not destroyed are the live handles, and the counter of the table, which looks
at no slot, is their number.
-/
namespace ByteIndex

namespace Ledger

variable {ledger before after : Ledger} {handle : Handle}

/-- The issued handles in order. -/
def handles (ledger : Ledger) : List Handle :=
  ledger.filterMap fun
    | .issued handle => some handle
    | .destroyed _ => none

/-- The handles that were issued and are not destroyed yet. -/
def outstanding (ledger : Ledger) : List Handle :=
  ledger.handles.filter fun handle => .destroyed handle ∉ ledger

structure Balanced (ledger : Ledger) : Prop where
  nodup : ledger.Nodup
  paired : ∀ {handle}, .destroyed handle ∈ ledger → ledger.Destroyed handle

private theorem mem_handles : handle ∈ ledger.handles ↔ ledger.Issued handle := by
  rw [handles, List.mem_filterMap, Issued]
  constructor
  · rintro ⟨_ | _, hmem, hmark⟩
    · cases hmark
      exact hmem
    · cases hmark
  · intro hmem
    exact ⟨_, hmem, rfl⟩

private theorem mem_outstanding :
    handle ∈ ledger.outstanding ↔ ledger.Issued handle ∧ .destroyed handle ∉ ledger := by
  rw [outstanding, List.mem_filter, mem_handles, decide_eq_true_iff]

theorem handles_append (first second : Ledger) :
    handles (first ++ second) = first.handles ++ second.handles :=
  List.filterMap_append

private theorem outstanding_issued (hdestroyed : .destroyed handle ∉ ledger) :
    outstanding (ledger ++ [.issued handle]) = ledger.outstanding ++ [handle] := by
  rw [outstanding, handles_append, List.filter_append]
  congr 1
  · refine List.filter_congr fun other _ => ?_
    simp
  · simp [handles, hdestroyed]

namespace Balanced

theorem nodup_outstanding (h : Balanced ledger) : ledger.outstanding.Nodup := by
  refine List.Nodup.filter _ (h.nodup.filterMap ?_)
  rintro (_ | _) (_ | _) handle hfirst hsecond <;> cases hfirst <;> cases hsecond
  rfl

private theorem outstanding_destroyed (h : Balanced ledger) (handle : Handle) :
    outstanding (ledger ++ [.destroyed handle]) = ledger.outstanding.erase handle := by
  rw [h.nodup_outstanding.erase_eq_filter, outstanding, handles_append,
    show handles [.destroyed handle] = [] from rfl, List.append_nil, outstanding,
    List.filter_filter]
  refine List.filter_congr fun other _ => ?_
  by_cases heq : other = handle <;> simp [heq]

theorem mem_outstanding_iff (h : Balanced ledger) :
    handle ∈ ledger.outstanding ↔ ledger.Live handle := by
  rw [mem_outstanding, Live]
  refine and_congr_right fun _ => not_congr ⟨h.paired, fun hdestroyed => ?_⟩
  exact (mem_of_destroyed hdestroyed).2

end Balanced
end Ledger

namespace SlotTable

variable {α : Type} {tag : UInt8} {table next : SlotTable tag α} {handle : Handle} {value : α}

private theorem live_insert (h : table.insert value = some (handle, next)) :
    next.live = table.live + 1 := by
  unfold insert at h
  split at h
  · split at h
    · cases h
      rfl
    · cases h
  · split at h
    · cases h
      rfl
    · cases h

theorem live_remove (h : table.remove handle = .ok (value, next)) :
    next.live = table.live - 1 := by
  have hget := (emptied_of_remove h).1
  rw [remove_of_get hget] at h
  cases h
  rw [vacate, (get_eq_ok_iff.mp hget).2]
  dsimp only
  split <;> rfl

/-- A table issues no handle twice and destroys only what is live, so its ledger balances and the
counter keeps up with it. -/
theorem Reachable.balanced {ledger : Ledger} (h : Reachable ledger table) :
    ledger.Balanced ∧ table.live = ledger.outstanding.length := by
  induction h with
  | empty => exact ⟨⟨List.nodup_nil, nofun⟩, rfl⟩
  | @step ledger _ table _ hreach hstep ih =>
    obtain ⟨hbalanced, hlive⟩ := ih
    have haccounts := hreach.accounts
    have hw := haccounts.wellFormed
    cases hstep with
    | keep | replace =>
      rw [List.append_nil]
      exact ⟨hbalanced, hlive⟩
    | @insert stored handle next h =>
      have hnew : ¬ ledger.Issued handle := by
        rw [haccounts.issued_iff]
        exact not_issued_of_filled (filled_of_insert hw h)
      have hkept : .destroyed handle ∉ ledger := fun hmem =>
        hnew (Ledger.mem_of_destroyed (hbalanced.paired hmem)).1
      refine ⟨⟨?_, ?_⟩, ?_⟩
      · rw [← List.concat_eq_append]
        exact hbalanced.nodup.concat hnew
      · intro other hmem
        rw [Ledger.destroyed_concat]
        rcases List.mem_append.mp hmem with hmem | hmem
        · exact .inl (hbalanced.paired hmem)
        · cases List.mem_singleton.mp hmem
      · rw [live_insert h, Ledger.outstanding_issued hkept, List.length_append, hlive]
        rfl
    | @remove handle value next h =>
      have hissued : ledger.Live handle :=
        (haccounts.live_iff handle).mpr ⟨value, (emptied_of_remove h).1⟩
      have hmem := hbalanced.mem_outstanding_iff.mpr hissued
      refine ⟨⟨?_, ?_⟩, ?_⟩
      · rw [← List.concat_eq_append]
        exact hbalanced.nodup.concat (Ledger.mem_outstanding.mp hmem).2
      · intro other hmem
        rw [Ledger.destroyed_concat]
        rcases List.mem_append.mp hmem with hmem | hmem
        · exact .inl (hbalanced.paired hmem)
        · cases List.mem_singleton.mp hmem
          exact .inr ⟨rfl, hissued.1⟩
      · rw [live_remove h, hbalanced.outstanding_destroyed, List.length_erase_of_mem hmem, hlive]

end SlotTable
end ByteIndex
