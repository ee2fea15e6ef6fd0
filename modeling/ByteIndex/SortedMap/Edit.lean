import ByteIndex.SortedMap.Basic
/-!
# Edits and families

An edit is a change to a map as data. A map is copied with all that it holds, so a family grows out
of one map: a command edits one member, named by its place, or adds a copy of it at the end.
-/
namespace ByteIndex

inductive Edit where
  | put (key : Bytes) (value : UInt64)
  | set (key : Bytes) (value : UInt64)
  | erase (key : Bytes)
  | clear

namespace Edit

inductive Answer where
  | done
  | former (value : Option UInt64)
  | refused (error : Error)
deriving DecidableEq

end Edit

/-- Make a change; a refused one leaves the map as it is. -/
def SortedMap.apply (map : SortedMap) : Edit → Edit.Answer × SortedMap
  | .put key value =>
    match map.put key value with
    | .error error => (.refused error, map)
    | .ok (former, next) => (.former former, next)
  | .set key value =>
    match map.set key value with
    | .error error => (.refused error, map)
    | .ok next => (.done, next)
  | .erase key =>
    let (former, next) := map.erase key
    (.former former, next)
  | .clear => (.done, map.clear)

/-- What a put, an erasure and a clearing keep of a map, every edit keeps of it. -/
theorem SortedMap.keeps_apply {P : SortedMap → Prop} {map : SortedMap} (h : P map)
    (hput : ∀ {key value old next}, map.put key value = .ok (old, next) → P next)
    (herase : ∀ key, P (map.erase key).2) (hclear : P map.clear) (edit : Edit) :
    P (map.apply edit).2 := by
  cases edit with
  | put key value =>
    rw [apply]
    cases hresult : map.put key value with
    | error error => exact h
    | ok changed => exact hput hresult
  | set key value =>
    rw [apply, set]
    cases hresult : map.put key value with
    | error error => exact h
    | ok changed => exact hput hresult
  | erase key => exact herase key
  | clear => exact hclear

/-- A map after each of a list of batches of edits. -/
def SortedMap.versions (map : SortedMap) : List (List Edit) → List SortedMap
  | [] => []
  | edits :: rest =>
    let next := edits.foldl (fun map edit => (map.apply edit).2) map
    next :: next.versions rest

theorem SortedMap.forall_versions {P : SortedMap → Prop}
    (hstep : ∀ {map}, P map → ∀ edit, P (map.apply edit).2) {map : SortedMap} (h : P map)
    (batches : List (List Edit)) : ∀ version ∈ map.versions batches, P version := by
  have hbatch (edits : List Edit) : ∀ map : SortedMap, P map →
      P (edits.foldl (fun map edit => (map.apply edit).2) map) := by
    induction edits with
    | nil => exact fun _ h => h
    | cons edit rest ih => exact fun map h => ih _ (hstep h edit)
  induction batches generalizing map with
  | nil => nofun
  | cons edits rest ih =>
    exact List.forall_mem_cons.mpr ⟨hbatch edits map h, ih (hbatch edits map h)⟩

inductive Command where
  | edit (place : Nat) (edit : Edit)
  | copy (place : Nat)

namespace Family

variable {σ : Type}

/-- Perform a command on a family whose members change by `apply`; there is no answer from an empty
place. -/
def perform (apply : σ → Edit → Edit.Answer × σ) (members : List σ) :
    Command → Option Edit.Answer × List σ
  | .edit place edit =>
    match members[place]? with
    | none => (none, members)
    | some member =>
      let (answer, next) := apply member edit
      (some answer, members.set place next)
  | .copy place =>
    match members[place]? with
    | none => (none, members)
    | some member => (some .done, members ++ [member])

/-- Perform commands in order; the answers and the family afterwards. -/
def run (apply : σ → Edit → Edit.Answer × σ) (members : List σ) :
    List Command → List (Option Edit.Answer) × List σ
  | [] => ([], members)
  | command :: rest =>
    let (answer, next) := perform apply members command
    let (answers, last) := run apply next rest
    (answer :: answers, last)

section

variable {P : σ → Prop} {apply : σ → Edit → Edit.Answer × σ} {members : List σ}

theorem forall_perform (hstep : ∀ {member}, P member → ∀ edit, P (apply member edit).2)
    (h : ∀ member ∈ members, P member) (command : Command) :
    ∀ member ∈ (perform apply members command).2, P member := by
  intro member hmem
  cases command with
  | edit place edit =>
    cases hplace : members[place]? with
    | none =>
      simp only [perform, hplace] at hmem
      exact h member hmem
    | some before =>
      simp only [perform, hplace] at hmem
      rcases List.mem_or_eq_of_mem_set hmem with hmem | rfl
      · exact h member hmem
      · exact hstep (h before (List.mem_of_getElem? hplace)) edit
  | copy place =>
    cases hplace : members[place]? with
    | none =>
      simp only [perform, hplace] at hmem
      exact h member hmem
    | some original =>
      simp only [perform, hplace] at hmem
      rcases List.mem_append.mp hmem with hmem | hmem
      · exact h member hmem
      · rw [List.mem_singleton.mp hmem]
        exact h original (List.mem_of_getElem? hplace)

theorem forall_run (hstep : ∀ {member}, P member → ∀ edit, P (apply member edit).2)
    (h : ∀ member ∈ members, P member) (commands : List Command) :
    ∀ member ∈ (run apply members commands).2, P member := by
  induction commands generalizing members with
  | nil => exact h
  | cons command rest ih => exact ih (forall_perform hstep h command)

end

end Family

namespace SortedMap

/-- A map that commands make out of an empty one. -/
def Reachable (map : SortedMap) : Prop :=
  ∃ config start commands, (start = empty ∨ create config = .ok start) ∧
    map ∈ (Family.run apply [start] commands).2

/-- What holds of empty maps and is kept by edits holds of every reachable map. -/
theorem Reachable.induction {P : SortedMap → Prop} {map : SortedMap} (h : Reachable map)
    (hempty : ∀ config, P (emptyWith config))
    (hstep : ∀ {member}, P member → ∀ edit, P (member.apply edit).2) : P map := by
  obtain ⟨config, start, commands, hstart, hmem⟩ := h
  refine Family.forall_run hstep ?_ commands map hmem
  intro member hmember
  rw [List.mem_singleton.mp hmember]
  rcases hstart with rfl | hcreate
  · exact hempty .unbounded
  · rw [(create_eq_ok_iff.mp hcreate).2]
    exact hempty config

end SortedMap
end ByteIndex
