import Watukuy.Cursor.Backfill
import Watukuy.Run.Polls

/-!
# What a bounded backfill re-emits

The pages of a backfill lane, given to `processPage` with `force`.
-/

set_option autoImplicit false

namespace Watukuy

open Library

namespace BackfillLane

/-- A backfill lane that is done, in any number of cycles, has fetched and processed every item of its
interval exactly when none of its pages splits the items at the target or withholds one of the
interval; and with `force` a page that is processed emits an event for each of its items that is
known. -/
theorem backfill_covers_iff (b : BackfillLane) (xs : List BackfillTurn) (s : BackfillState)
    (hrun : b.run xs = .ok s) (hdone : s.done = true) :
    (b.Covered s ↔ b.Clean b.saved xs) ∧
    ∀ (diff : DiffPage (Entry UnitText)) (page : PollPage (Entry UnitText))
      (rec : KeyRecord (Entry UnitText)) (events : List (EventSpec (Entry UnitText)))
      (upserts : List (ItemRow (Entry UnitText))), page.items ∈ s.pages → page.force = true →
      page.process diff rec = .ok (events, upserts) → ∀ valid invalid,
      validateItems page.poller page.items = .ok (valid, invalid) → ∀ item ∈ valid, ∀ identity,
      page.poller.identity item = .string identity → (rec.items.get identity).isSome →
      ∃ spec ∈ events, spec.identity = identity := by
  constructor
  · exact covered_iff_clean (onTrack_saved b) rfl hrun hdone
  · intro diff page rec events upserts _ hforce hprocess valid invalid hvalid item hitem identity hid
      hknown
    exact forced_reemits hforce hprocess hvalid hitem hid hknown

/-- A backfill up to `100`, with pages of two. -/
def upToHundred (items : List (Entry UnitText))
    (sorted : items.Pairwise fun a b =>
      toLex (Feed.epochInstant a.stamp, a.id) < toLex (Feed.epochInstant b.stamp, b.id)) :
    BackfillLane where
  instant := Feed.epochInstant
  items := items
  sorted := sorted
  limit := 2
  limit_pos := Nat.two_pos
  field := "updatedAt"
  initial := none
  lagMs := 0
  overlapMs := 0
  format := Feed.epochFormat
  format_le := Feed.epochFormat_le
  start := 1000
  elapsed _ := 0
  since := "90"
  goal := "100"
  ordered := by decide +kernel

/-- Three items at the target: the first page reaches it with two of them, the lane is done, and the
third is never fetched. -/
theorem target_split :
    let b := upToHundred [⟨⟨"a"⟩, "100"⟩, ⟨⟨"b"⟩, "100"⟩, ⟨⟨"c"⟩, "100"⟩] (by decide +kernel)
    ∃ s r, b.run [⟨true, 1000⟩] = .ok s ∧ s.done = true ∧ r ∈ b.items ∧ b.Within r ∧
      r ∉ s.fetched := by
  intro b
  have hrun : b.run [⟨true, 1000⟩] = .ok
      { cursor := .keyset (some "100") (some "b"), done := true
        fetched := [⟨⟨"a"⟩, "100"⟩, ⟨⟨"b"⟩, "100"⟩]
        pages := [[⟨⟨"a"⟩, "100"⟩, ⟨⟨"b"⟩, "100"⟩]] } := by decide +kernel
  have hwithin : b.Within ⟨⟨"c"⟩, "100"⟩ := by
    constructor <;> decide +kernel
  exact ⟨_, ⟨⟨"c"⟩, "100"⟩, hrun, rfl, by simp [b, upToHundred], hwithin, by decide⟩

/-- Two items before the target and one after it. -/
theorem backfill_covers_sample :
    let b := upToHundred [⟨⟨"a"⟩, "95"⟩, ⟨⟨"b"⟩, "100"⟩, ⟨⟨"c"⟩, "105"⟩] (by decide +kernel)
    let s : BackfillState :=
      { cursor := .keyset (some "100") (some "b"), done := true
        fetched := [⟨⟨"a"⟩, "95"⟩, ⟨⟨"b"⟩, "100"⟩]
        pages := [[⟨⟨"a"⟩, "95"⟩, ⟨⟨"b"⟩, "100"⟩]] }
    b.Covered s ↔ b.Clean b.saved [⟨true, 1000⟩] := by
  intro b s
  have hrun : b.run [⟨true, 1000⟩] = .ok s := by decide +kernel
  exact (backfill_covers_iff b [⟨true, 1000⟩] s hrun rfl).1

end BackfillLane

end Watukuy
