import Memlay.FilterLimit

/-!
# The order of an answer

Every set is sorted newest first, and the planner puts what it reads of one set after
what it read of the sets before it.  Nothing merges them, so an answer is newest first
only where the sets happen to be read in the order of their times:

    NewestFirst (f.queryFilter s)  ↔  ReadInOrder s f                  (newestFirst_iff)

The scan over all events hands them over oldest first; there all matches that it keeps
have to be of one time, and `OneTime` says which these are by their places in the shards.
-/

namespace Memlay
namespace Filter

open Index

/-- The lists the planner puts one after another when it does not scan. -/
def reads (s : Index) (f : Filter) : List (List Event) :=
  if f.useIds then (f.byIds s).map fun e => [e] else (f.readSets s).map fun l => l.take f.fetchLimit

theorem queryFilter_eq (s : Index) (f : Filter) :
    f.queryFilter s = Paging.cut f.limit (Paging.collect Event.id f.keeps [] (f.candidates s)) := by
  rw [← collect_eq]
  rfl

section
variable {E : Event → Prop} {s : Index} {f : Filter}

theorem candidates_reads (hscan : f.scans = false) : f.candidates s = (f.reads s).flatten := by
  rw [candidates_eq, hscan]
  unfold reads
  split
  · rw [← List.flatMap_def, List.flatMap_singleton']
  · exact List.flatMap_def

theorem candidates_scans (hscan : f.scans = true) : f.candidates s = s.getNewest f.fetchLimit := by
  rw [candidates_eq, useIds_of_scans hscan, hscan]
  rfl

end

end Filter
end Memlay
