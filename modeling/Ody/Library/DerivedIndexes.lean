import Ody.Library.Tables

/-!
# Records with derived indexes

A table of records is the source of truth. Beside it a store keeps scored
indexes, counters and references that could be computed from the records, and
updates them by hand with every write. `Derived` says that they are what the
records determine. It is enough to look at one key at a time: `Rewrites` says
what a batch of commands has to do at the key of the record it writes.
-/

namespace Ody.Library.DerivedIndexes

open Tables

/-- What a record determines: its key, its score in each index, the counter it is counted in and
the references that lead to it. -/
structure Schema (K Rec Index Field Ref : Type) where
  key : Rec → K
  score : Index → Rec → Option Int
  field : Rec → Field
  refs : Rec → List Ref

/-- Records with their indexes, counters and references. -/
structure Indexed (K Rec Index Field Ref : Type) where
  records : Table K Rec
  index : Index → Table K Int
  counts : Field → Int
  refs : Table Ref K

/-- One command of a batch. -/
inductive Command (K Rec Index Field Ref : Type) where
  | set (id : K) (record : Rec)
  | del (id : K)
  | incr (field : Field) (delta : Int)
  | add (index : Index) (score : Int) (member : K)
  | remove (index : Index) (member : K)
  | setRef (ref : Ref) (id : K)
  | delRef (ref : Ref)
  deriving DecidableEq, Repr

variable {K Rec Index Field Ref : Type} [DecidableEq K] [DecidableEq Field] [DecidableEq Ref]

namespace Indexed

variable [DecidableEq Index]

/-- Nothing is stored. -/
def empty : Indexed K Rec Index Field Ref where
  records := ∅
  index := fun _ => ∅
  counts := fun _ => 0
  refs := ∅

/-- Execute one command. -/
def apply (d : Indexed K Rec Index Field Ref) :
    Command K Rec Index Field Ref → Indexed K Rec Index Field Ref
  | .set id record => { d with records := d.records.insert id record }
  | .del id => { d with records := d.records.erase id }
  | .incr field delta =>
      { d with counts := Function.update d.counts field (d.counts field + delta) }
  | .add index score member =>
      { d with index := Function.update d.index index ((d.index index).insert member score) }
  | .remove index member =>
      { d with index := Function.update d.index index ((d.index index).erase member) }
  | .setRef ref id => { d with refs := d.refs.insert ref id }
  | .delRef ref => { d with refs := d.refs.erase ref }

/-- The score of a member of an index. -/
def entry (d : Indexed K Rec Index Field Ref) (i : Index) (k : K) : Option Int :=
  (d.index i).lookup k

theorem entry_apply (d : Indexed K Rec Index Field Ref) (c : Command K Rec Index Field Ref)
    (i : Index) (k : K) :
    (d.apply c).entry i k =
      match c with
      | .add index score member => if i = index ∧ k = member then some score else d.entry i k
      | .remove index member => if i = index ∧ k = member then none else d.entry i k
      | _ => d.entry i k := by
  cases c with
  | add index score member =>
      by_cases hi : i = index
      · subst hi
        simp [apply, entry, lookup_insert_ite]
      · simp [apply, entry, hi]
  | remove index member =>
      by_cases hi : i = index
      · subst hi
        simp [apply, entry, lookup_erase_ite]
      · simp [apply, entry, hi]
  | _ => rfl

theorem counts_apply (d : Indexed K Rec Index Field Ref) (c : Command K Rec Index Field Ref)
    (f : Field) :
    (d.apply c).counts f =
      match c with
      | .incr field delta => d.counts f + if f = field then delta else 0
      | _ => d.counts f := by
  cases c with
  | incr field delta =>
      by_cases hf : f = field
      · subst hf
        simp [apply]
      · simp [apply, hf]
  | _ => rfl

/-- The commands that set references to one record. -/
def setRefs (refs : List Ref) (id : K) : List (Command K Rec Index Field Ref) :=
  refs.map fun ref => .setRef ref id

theorem foldl_setRefs (d : Indexed K Rec Index Field Ref) (refs : List Ref) (id : K) :
    (setRefs refs id).foldl apply d =
      { d with refs := refs.foldl (fun m ref => m.insert ref id) d.refs } := by
  induction refs generalizing d with
  | nil => rfl
  | cons ref rest ih => exact ih (d.apply (.setRef ref id))

theorem records_setRefs (d : Indexed K Rec Index Field Ref) (refs : List Ref) (id : K) :
    ((setRefs refs id).foldl apply d).records = d.records := by rw [foldl_setRefs]

theorem entry_setRefs (d : Indexed K Rec Index Field Ref) (refs : List Ref) (id : K) (i : Index)
    (k : K) : ((setRefs refs id).foldl apply d).entry i k = d.entry i k := by
  rw [foldl_setRefs]
  rfl

theorem counts_setRefs (d : Indexed K Rec Index Field Ref) (refs : List Ref) (id : K) (f : Field) :
    ((setRefs refs id).foldl apply d).counts f = d.counts f := by rw [foldl_setRefs]

theorem lookup_setRefs (d : Indexed K Rec Index Field Ref) (refs : List Ref) (id : K) (ref : Ref) :
    ((setRefs refs id).foldl apply d).refs.lookup ref =
      if ref ∈ refs then some id else d.refs.lookup ref := by
  rw [foldl_setRefs]
  induction refs generalizing d with
  | nil => simp
  | cons first rest ih =>
      have hrest := ih (d.apply (.setRef first id))
      rw [List.foldl_cons]
      refine hrest.trans ?_
      by_cases hmem : ref ∈ rest
      · simp [hmem]
      · simp [hmem, apply, lookup_insert_ite]

end Indexed

/-! ## References -/

section References

variable {C : Type} [Membership Ref C] {π : Rec → C} {m m' : Table K Rec} {refs refs' : Table Ref K}
  {k : K} {record : Rec}

/-- Each reference leads to the record that carries it, and there is no other one. -/
def Leads (π : Rec → C) (m : Table K Rec) (refs : Table Ref K) : Prop :=
  ∀ ref k, refs.lookup ref = some k ↔ ∃ record, m.lookup k = some record ∧ ref ∈ π record

/-- References determine their record. -/
theorem Leads.unique (h : Leads π m refs) {ref : Ref} {k' : K} {record' : Rec}
    (hl : m.lookup k = some record) (hl' : m.lookup k' = some record') (href : ref ∈ π record)
    (href' : ref ∈ π record') : k = k' := by
  have hk := (h ref k).mpr ⟨record, hl, href⟩
  have hk' := (h ref k').mpr ⟨record', hl', href'⟩
  exact Option.some.inj (hk.symm.trans hk')

/-- A reference that leads nowhere is one that no record carries. -/
theorem Leads.free_iff (h : Leads π m refs) {ref : Ref} :
    refs.lookup ref = none ↔ ∀ k record, m.lookup k = some record → ref ∉ π record := by
  rw [Option.eq_none_iff_forall_ne_some]
  constructor
  · intro hnone k record hl href
    exact hnone k ((h ref k).mpr ⟨record, hl, href⟩)
  · intro hfree k hlead
    obtain ⟨record, hl, href⟩ := (h ref k).mp hlead
    exact hfree k record hl href

/-- When records and references go, a reference goes exactly with its record. -/
theorem Leads.dropped_iff (h : Leads π m refs) (h' : Leads π m' refs')
    (hm : ∀ k record, m'.lookup k = some record → m.lookup k = some record)
    (hrefs : ∀ ref k, refs'.lookup ref = some k → refs.lookup ref = some k) {ref : Ref}
    (hlead : refs.lookup ref = some k) : refs'.lookup ref = none ↔ m'.lookup k = none := by
  obtain ⟨record, hl, href⟩ := (h ref k).mp hlead
  constructor
  · intro hnone
    refine Option.eq_none_iff_forall_ne_some.mpr fun record' hl' => ?_
    cases hl.symm.trans (hm k record' hl')
    cases hnone.symm.trans ((h' ref k).mpr ⟨record, hl', href⟩)
  · intro hgone
    refine Option.eq_none_iff_forall_ne_some.mpr fun k' hlead' => ?_
    cases hlead.symm.trans (hrefs ref k' hlead')
    obtain ⟨record', hl', -⟩ := (h' ref k).mp hlead'
    cases hgone.symm.trans hl'

/-- Nothing changes for the references when the records keep theirs. -/
theorem Leads.congr (h : Leads π m refs)
    (hm : ∀ k, (m'.lookup k).map π = (m.lookup k).map π) : Leads π m' refs := by
  have hcarries : ∀ (m : Table K Rec) (ref : Ref) (k : K),
      (∃ record, m.lookup k = some record ∧ ref ∈ π record) ↔
        ∃ c, (m.lookup k).map π = some c ∧ ref ∈ c := by
    intro m ref k
    cases m.lookup k <;> simp
  intro ref k
  rw [hcarries, hm, ← hcarries]
  exact h ref k

/-- A new record comes with its references. -/
theorem Leads.insert (h : Leads π m refs) (hnew : m.lookup k = none)
    (hfree : ∀ ref ∈ π record, refs.lookup ref = none)
    (hset : ∀ ref ∈ π record, refs'.lookup ref = some k)
    (hkept : ∀ ref, ref ∉ π record → refs'.lookup ref = refs.lookup ref) :
    Leads π (m.insert k record) refs' := by
  intro ref k'
  rw [lookup_insert_ite]
  have hunused : refs.lookup ref ≠ some k := by
    rw [ne_eq, h ref k, hnew]
    simp
  by_cases href : ref ∈ π record
  · have hother := h.free_iff.mp (hfree ref href) k'
    rw [hset ref href]
    by_cases hk : k' = k
    · simp [hk, href]
    · simpa [hk, Ne.symm hk] using hother
  · rw [hkept ref href]
    by_cases hk : k' = k
    · simp [hk, href, hunused]
    · rw [if_neg hk]
      exact h ref k'

/-- Renaming the keys of one table gives the keys of the other, with records that are the same up
to a relation. -/
structure Renames (same : Rec → Rec → Prop) (rename : K → K) (m m' : Table K Rec) : Prop where
  injective : ∀ k ∈ m, ∀ k' ∈ m, rename k = rename k' → k = k'
  onto : ∀ k' ∈ m', ∃ k ∈ m, rename k = k'
  record : ∀ k record, m.lookup k = some record →
    ∃ record', m'.lookup (rename k) = some record' ∧ same record record'

/-- References follow the renaming. -/
theorem Leads.rename (h : Leads π m refs) (h' : Leads π m' refs') {same : Rec → Rec → Prop}
    {rename : K → K} (hrenames : Renames same rename m m')
    (hsame : ∀ record record', same record record' → π record' = π record) (ref : Ref) :
    refs'.lookup ref = (refs.lookup ref).map rename := by
  ext k'
  rw [Option.map_eq_some_iff, h' ref k']
  constructor
  · rintro ⟨record', hl', href⟩
    obtain ⟨k, hk, rfl⟩ := hrenames.onto k' (AList.lookup_isSome.mp (by rw [hl']; rfl))
    obtain ⟨record, hl⟩ := Option.isSome_iff_exists.mp (AList.lookup_isSome.mpr hk)
    obtain ⟨stored, hstored, hs⟩ := hrenames.record k record hl
    cases hl'.symm.trans hstored
    exact ⟨k, (h ref k).mpr ⟨record, hl, hsame record record' hs ▸ href⟩, rfl⟩
  · rintro ⟨k, hk, rfl⟩
    obtain ⟨record, hl, href⟩ := (h ref k).mp hk
    obtain ⟨record', hl', hs⟩ := hrenames.record k record hl
    exact ⟨record', hl', (hsame record record' hs).symm ▸ href⟩

/-- A record goes with its references. -/
theorem Leads.remove (h : Leads π m refs) (hl : m.lookup k = some record)
    (hgone : ∀ ref ∈ π record, refs'.lookup ref = none)
    (hkept : ∀ ref, ref ∉ π record → refs'.lookup ref = refs.lookup ref) :
    Leads π (m.erase k) refs' := by
  intro ref k'
  rw [lookup_erase_ite]
  by_cases href : ref ∈ π record
  · rw [hgone ref href]
    by_cases hk : k' = k
    · simp [hk]
    · have hothers : ∀ other, m.lookup k' = some other → ref ∉ π other :=
        fun other hl' hcarried => hk (h.unique hl' hl hcarried href)
      simpa [hk] using hothers
  · rw [hkept ref href]
    by_cases hk : k' = k
    · have hnot : refs.lookup ref ≠ some k := by
        rw [ne_eq, h ref k, hl]
        simpa using href
      simp [hk, hnot]
    · rw [if_neg hk]
      exact h ref k'

end References

/-! ## The derived data -/

section Derived

variable (schema : Schema K Rec Index Field Ref)

/-- The test for the records of one counter. -/
def Schema.counted (f : Field) (record : Rec) : Bool := schema.field record = f

/-- Indexes, counters and references are those of the records. -/
structure Derived (d : Indexed K Rec Index Field Ref) : Prop where
  keyed : ∀ k record, d.records.lookup k = some record → schema.key record = k
  index : ∀ i k, d.entry i k = (d.records.lookup k).bind (schema.score i)
  counts : ∀ f, d.counts f = tally (schema.counted f) d.records
  refs : ∀ ref k, d.refs.lookup ref = some k ↔
    ∃ record, d.records.lookup k = some record ∧ ref ∈ schema.refs record

/-- A batch that leaves the record `o` at the key `k` and what it determines, and nothing else. -/
structure Rewrites (d d' : Indexed K Rec Index Field Ref) (k : K) (o : Option Rec) : Prop where
  records : d'.records = Tables.set d.records k o
  keyed : ∀ record, o = some record → schema.key record = k
  index : ∀ i k', d'.entry i k' = if k' = k then o.bind (schema.score i) else d.entry i k'
  counts : ∀ f, d'.counts f =
    d.counts f - weight (schema.counted f) (d.records.lookup k) + weight (schema.counted f) o
  refs : ∀ ref k', d'.refs.lookup ref = some k' ↔
    if k' = k then ∃ record, o = some record ∧ ref ∈ schema.refs record
    else d.refs.lookup ref = some k'

variable {schema} {d d' : Indexed K Rec Index Field Ref} {k : K} {o : Option Rec}

theorem Derived.empty : Derived schema (Indexed.empty : Indexed K Rec Index Field Ref) where
  keyed := by simp [Indexed.empty]
  index := by simp [Indexed.empty, Indexed.entry]
  counts := fun f => rfl
  refs := by simp [Indexed.empty]

/-- A batch that rewrites one record keeps the derived data derived. -/
theorem Derived.rewrite (h : Derived schema d) (hr : Rewrites schema d d' k o) :
    Derived schema d' := by
  have hlookup : ∀ k', d'.records.lookup k' = if k' = k then o else d.records.lookup k' := by
    intro k'
    rw [hr.records, lookup_set]
  constructor
  · intro k' record hl
    rw [hlookup] at hl
    split at hl
    · next heq =>
      rw [heq]
      exact hr.keyed record hl
    · exact h.keyed k' record hl
  · intro i k'
    rw [hr.index, hlookup]
    split
    · rfl
    · exact h.index i k'
  · intro f
    rw [hr.counts, h.counts, hr.records, tally_set]
  · intro ref k'
    rw [hr.refs, hlookup]
    split
    · rfl
    · exact h.refs ref k'

/-- The references of a batch that replaces a record by one with the same references. -/
theorem Derived.refs_replace (h : Derived schema d) {record record' : Rec}
    (hl : d.records.lookup k = some record) (hrefs : d'.refs = d.refs)
    (hsame : schema.refs record' = schema.refs record) (ref : Ref) (k' : K) :
    d'.refs.lookup ref = some k' ↔
      if k' = k then ∃ r, some record' = some r ∧ ref ∈ schema.refs r
      else d.refs.lookup ref = some k' := by
  rw [hrefs]
  by_cases heq : k' = k
  · rw [if_pos heq, h.refs, heq, hl]
    simp [hsame]
  · rw [if_neg heq]

/-- References determine their record. -/
theorem Derived.refs_unique (h : Derived schema d) {ref : Ref} {k' : K} {record record' : Rec}
    (hl : d.records.lookup k = some record) (hl' : d.records.lookup k' = some record')
    (href : ref ∈ schema.refs record) (href' : ref ∈ schema.refs record') : k = k' :=
  Leads.unique h.refs hl hl' href href'

/-- The references of a batch that inserts a record whose references are free. -/
theorem Derived.refs_insert (h : Derived schema d) {record : Rec}
    (hnew : d.records.lookup k = none)
    (hfree : ∀ ref ∈ schema.refs record, d.refs.lookup ref = none)
    (hlookup : ∀ ref, d'.refs.lookup ref =
      if ref ∈ schema.refs record then some k else d.refs.lookup ref) (ref : Ref) (k' : K) :
    d'.refs.lookup ref = some k' ↔
      if k' = k then ∃ r, some record = some r ∧ ref ∈ schema.refs r
      else d.refs.lookup ref = some k' := by
  have hunused : d.refs.lookup ref ≠ some k := by
    rw [ne_eq, h.refs, hnew]
    simp
  rw [hlookup]
  by_cases hmem : ref ∈ schema.refs record
  · by_cases heq : k' = k
    · simp [hmem, heq]
    · simp [hmem, heq, hfree ref hmem, Ne.symm heq]
  · by_cases heq : k' = k
    · simp [hmem, heq, hunused]
    · simp [hmem, heq]

/-- The references of a batch that removes a record and its references. -/
theorem Derived.refs_remove (h : Derived schema d) {record : Rec} {removed : List Ref}
    (hl : d.records.lookup k = some record)
    (hlookup : ∀ ref, d'.refs.lookup ref = if ref ∈ removed then none else d.refs.lookup ref)
    (hall : ∀ ref ∈ schema.refs record, ref ∈ removed)
    (hown : ∀ other ref, ref ∈ removed → ref ∈ schema.refs other → ref ∈ schema.refs record)
    (ref : Ref) (k' : K) :
    d'.refs.lookup ref = some k' ↔
      if k' = k then ∃ r, none = some r ∧ ref ∈ schema.refs r
      else d.refs.lookup ref = some k' := by
  rw [hlookup]
  by_cases hmem : ref ∈ removed
  · have hothers : k' ≠ k → d.refs.lookup ref ≠ some k' := by
      intro hne hother
      obtain ⟨other, hrecord, href⟩ := (h.refs ref k').mp hother
      exact hne (h.refs_unique hrecord hl href (hown other ref hmem href))
    by_cases heq : k' = k
    · simp [hmem, heq]
    · simp [hmem, heq, hothers heq]
  · have hgone : d.refs.lookup ref ≠ some k := by
      intro hlead
      obtain ⟨other, hrecord, href⟩ := (h.refs ref k).mp hlead
      cases hl.symm.trans hrecord
      exact hmem (hall ref href)
    by_cases heq : k' = k
    · simp [hmem, heq, hgone]
    · simp [hmem, heq]

/-- Members of an index have a record. -/
theorem Derived.mem_index (h : Derived schema d) {i : Index} {score : Int}
    (hentry : d.entry i k = some score) : ∃ record, d.records.lookup k = some record ∧
      schema.score i record = some score := by
  rw [h.index] at hentry
  exact Option.bind_eq_some_iff.mp hentry

end Derived

end Ody.Library.DerivedIndexes
