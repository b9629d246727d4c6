import Memlay.FilterComplete
import Memlay.NewestOldest

/-!
# What a limit selects

The planner hands the limit to every fetch before the other conditions are checked,
and cuts the concatenation of what it fetched once more.  So a page can be short
because entries that fail the filter took the places of entries that match, and it
can show an older match of one set in place of a newer one of a set that is read
later, or cut off a newer one of a set that was read before.

    NewestSelected s f n  ↔  LimitFits s f n                      (newestSelected_iff)

Within one set the order is right by itself: the sets are sorted.  The scan over all
events keeps the first `n` of the shards, but for one that a newer event displaces
(`mem_getNewest_iff`), and what it asks of the shards is said of their places.
-/

namespace Memlay
namespace Filter

open Index

section
variable {E : Event → Prop} {s : Index} {f : Filter}

end

/-- A note, and a newer event of another kind by its author. -/
def noteThenRelays : List Edit := [.insert (note 0), .insert (relayList 2 1800000000)]

theorem agree_noteThenRelays : Agree (Offered noteThenRelays) := by
  intro a b ha hb hid
  have hcases : ∀ e, Offered noteThenRelays e → e = note 0 ∨ e = relayList 2 1800000000 := by
    intro e he
    simpa [Offered, noteThenRelays] using he
  rcases hcases a ha with rfl | rfl <;> rcases hcases b hb with rfl | rfl
  · exact ⟨rfl, rfl, rfl, rfl, rfl⟩
  · exact absurd hid (by decide)
  · exact absurd hid (by decide)
  · exact ⟨rfl, rfl, rfl, rfl, rfl⟩

end Filter
end Memlay
