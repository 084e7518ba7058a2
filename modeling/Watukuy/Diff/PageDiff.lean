import Watukuy.Diff.Diff

/-!
# The diff of a page, item by item

`prepareCandidates` and `diffCandidates` together: what a page changes is what each of its latest
items changes, in their order. `hashAll` leaves the version fast path out and hashes every item.
-/

set_option autoImplicit false

namespace Watukuy

open Library

variable {ι : Type} (crypto : Crypto) (poller : ResolvedPoller ι)
  (existing : OrderedMap String (ItemRow ι)) (now : Int) (touchUnchanged : Bool)

/-- The two steps of `processPage` that decide what changed. -/
def pageDiff (items : List ι) : Except JsError (DiffResult ι) := do
  let (candidates, _) ← prepareCandidates crypto poller items existing
  return diffCandidates poller existing now touchUnchanged candidates

/-- The candidate of one latest item. -/
def candidateOf (entry : String × ι) : Except JsError (DiffCandidate ι) := do
  let hash ← fingerprintOf crypto poller entry.2
  return { identity := entry.1, item := entry.2, version := poller.version.map fun f => f entry.2,
           hash }

/-- `prepareCandidates` without the version fast path. -/
def prepareHashed (items : List ι) : Except JsError (List (DiffCandidate ι)) := do
  let latest ← latestItems poller items
  latest.entries.mapM (candidateOf crypto poller)

/-- The diff of a page of which every item is hashed. -/
def pageDiffHashed (items : List ι) : Except JsError (DiffResult ι) := do
  let candidates ← prepareHashed crypto poller items
  return diffCandidates poller existing now touchUnchanged candidates

/-- What one latest item adds, hashed or by the fast path. -/
def entryDiff (hashAll : Bool) (entry : String × ι) : Except JsError (DiffResult ι) :=
  if ¬hashAll ∧ fastPath poller (poller.version.map fun f => f entry.2) (existing.get entry.1)
  then .ok {}
  else do
    let candidate ← candidateOf crypto poller entry
    return diffCandidate poller existing now touchUnchanged candidate

/-- What the latest items of a page add, in order. -/
def entriesDiff (hashAll : Bool) : List (String × ι) → Except JsError (DiffResult ι)
  | [] => .ok {}
  | entry :: entries => do
    let first ← entryDiff crypto poller existing now touchUnchanged hashAll entry
    let rest ← entriesDiff hashAll entries
    return first.append rest

section
variable {crypto poller existing now touchUnchanged}

/-- What the fast path looks at. -/
theorem fastPath_iff {version : Option String} {row : Option (ItemRow ι)} :
    fastPath poller version row = true ↔
      ∃ r v, row = some r ∧ version = some v ∧ r.version = some v ∧
        r.schemaVersion = poller.schemaVersion := by
  cases row with
  | none => simp [fastPath]
  | some r =>
    simp only [fastPath, Bool.and_eq_true, beq_iff_eq, Option.isSome_iff_exists, Option.some.injEq,
      exists_and_left, exists_eq_left']
    constructor
    · rintro ⟨⟨⟨v, hv⟩, hversion⟩, hschema⟩
      exact ⟨v, hv, hversion.trans hv, hschema⟩
    · rintro ⟨v, hv, hversion, hschema⟩
      exact ⟨⟨⟨v, hv⟩, hversion.trans hv.symm⟩, hschema⟩

/-- Two steps that succeed. -/
theorem bind_eq_ok {α β : Type} {x : Except JsError α} {f : α → Except JsError β} {b : β} :
    x.bind f = .ok b ↔ ∃ a, x = .ok a ∧ f a = .ok b := by
  cases x <;> simp [Except.bind]

theorem entriesDiff_cons_ok {hashAll : Bool} {entry : String × ι} {entries : List (String × ι)}
    {d : DiffResult ι} (h : entriesDiff crypto poller existing now touchUnchanged hashAll
      (entry :: entries) = .ok d) :
    ∃ first rest, entryDiff crypto poller existing now touchUnchanged hashAll entry = .ok first ∧
      entriesDiff crypto poller existing now touchUnchanged hashAll entries = .ok rest ∧
      d = first.append rest := by
  obtain ⟨first, hfirst, h⟩ := bind_eq_ok.1 h
  obtain ⟨rest, hrest, h⟩ := bind_eq_ok.1 h
  exact ⟨first, rest, hfirst, hrest, (Except.ok.inj h).symm⟩

/-- An item that is not skipped has its hash compared. -/
theorem entryDiff_ok {hashAll : Bool} {entry : String × ι} {d : DiffResult ι}
    (hskip : ¬(¬hashAll = true ∧
      fastPath poller (poller.version.map fun f => f entry.2) (existing.get entry.1) = true))
    (h : entryDiff crypto poller existing now touchUnchanged hashAll entry = .ok d) :
    ∃ hash, fingerprintOf crypto poller entry.2 = .ok hash ∧
      d = diffCandidate poller existing now touchUnchanged
        { identity := entry.1, item := entry.2,
          version := (poller.version.map fun f => f entry.2), hash } := by
  rw [entryDiff, if_neg hskip] at h
  obtain ⟨candidate, hcandidate, h⟩ := bind_eq_ok.1 h
  obtain ⟨hash, hhash, hcandidate⟩ := bind_eq_ok.1 hcandidate
  obtain rfl := Except.ok.inj hcandidate
  exact ⟨hash, hhash, (Except.ok.inj h).symm⟩

/-- What a candidate writes is its row. -/
theorem mem_diffCandidate_upserts {c : DiffCandidate ι} {row : ItemRow ι}
    (h : row ∈ (diffCandidate poller existing now touchUnchanged c).upserts) :
    row = rowFor poller c now := by
  simp only [diffCandidate] at h
  repeat' split at h
  all_goals first | exact List.mem_singleton.1 h | cases h

@[simp] theorem DiffResult.nil_append (d : DiffResult ι) : DiffResult.append {} d = d := rfl

/-- The page as its latest items. -/
theorem pageDiff_eq (items : List ι) :
    pageDiff crypto poller existing now touchUnchanged items =
      (latestItems poller items).bind fun latest =>
        entriesDiff crypto poller existing now touchUnchanged false latest.entries := by
  have hentries : ∀ entries : List (String × ι),
      (candidatesOf crypto poller existing entries).map
          (fun p => diffCandidates poller existing now touchUnchanged p.1) =
        entriesDiff crypto poller existing now touchUnchanged false entries := by
    intro entries
    induction entries with
    | nil => rfl
    | cons entry entries ih =>
      obtain ⟨identity, item⟩ := entry
      rw [entriesDiff, ← ih]
      by_cases hfast : fastPath poller (poller.version.map fun f => f item)
          (existing.get identity) = true
      · simp only [candidatesOf, entryDiff, hfast]
        cases candidatesOf crypto poller existing entries <;> rfl
      · simp only [candidatesOf, entryDiff, candidateOf, hfast]
        cases fingerprintOf crypto poller item with
        | error e => rfl
        | ok hash => cases candidatesOf crypto poller existing entries <;> rfl
  unfold pageDiff prepareCandidates
  cases latestItems poller items with
  | error e => rfl
  | ok latest =>
    have hlatest := hentries latest.entries
    simp only [bind, Except.bind, pure, Except.pure]
    rw [← hlatest]
    cases candidatesOf crypto poller existing latest.entries <;> rfl

theorem pageDiffHashed_eq (items : List ι) :
    pageDiffHashed crypto poller existing now touchUnchanged items =
      (latestItems poller items).bind fun latest =>
        entriesDiff crypto poller existing now touchUnchanged true latest.entries := by
  have hentries : ∀ entries : List (String × ι),
      (entries.mapM (candidateOf crypto poller)).map
          (diffCandidates poller existing now touchUnchanged) =
        entriesDiff crypto poller existing now touchUnchanged true entries := by
    intro entries
    induction entries with
    | nil => rfl
    | cons entry entries ih =>
      rw [entriesDiff, ← ih, List.mapM_cons]
      simp only [entryDiff, not_true, false_and, if_false]
      cases candidateOf crypto poller entry with
      | error e => rfl
      | ok candidate => cases entries.mapM (candidateOf crypto poller) <;> rfl
  unfold pageDiffHashed prepareHashed
  cases latestItems poller items with
  | error e => rfl
  | ok latest =>
    have hlatest := hentries latest.entries
    simp only [bind, Except.bind, pure, Except.pure]
    rw [← hlatest]
    cases latest.entries.mapM (candidateOf crypto poller) <;> rfl

end

end Watukuy
