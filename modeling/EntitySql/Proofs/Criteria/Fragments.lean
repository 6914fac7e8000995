import EntitySql.Proofs.Condition.Meaning
import EntitySql.Proofs.Criteria.Faults
import EntitySql.Proofs.Query.Values
import Mathlib.Logic.Relation

/-!
Criteria declared in fragments. What a scope holds in the end is what its where clauses and its
orderings come to when they are put together, and the limit and the offset that were declared last.
So it makes no difference into which blocks a declaration is cut, how blocks of several kinds are
mixed, which numbers were overwritten, and whether the scope was materialized on the way; and blocks
of a where clause mean what they mean as one, an `or` group at the start of a block included.
-/

namespace EntitySql

namespace Declaration

def restrictions : Declaration → List Criterion
  | restrict criteria => criteria
  | _ => []

def order : Declaration → List SortItem
  | sort items => items
  | _ => []

/-- Sequences of declarations that come to the same where clause, ordering, limit and offset. -/
structure Alike (declared others : List Declaration) : Prop where
  restrictions : declared.flatMap restrictions = others.flatMap restrictions
  order : declared.flatMap order = others.flatMap order
  limit : (declared.filterMap limit?).getLast? = (others.filterMap limit?).getLast?
  offset : (declared.filterMap offset?).getLast? = (others.filterMap offset?).getLast?

inductive Subject
  | restrictions
  | order
  | limit
  | offset
  | nothing
  deriving DecidableEq, Repr

def subject : Declaration → Subject
  | restrict _ => .restrictions
  | sort _ => .order
  | limit _ => .limit
  | offset _ => .offset
  | materialize => .nothing

/-- Ways to declare the same otherwise: blocks are merged, declarations of different kinds change
places, numbers that are overwritten and looks at the scope are left out. -/
inductive Move : List Declaration → List Declaration → Prop
  | mergeRestrictions (first second : List Criterion) :
      Move [restrict first, restrict second] [restrict (first ++ second)]
  | mergeOrder (first second : List SortItem) :
      Move [sort first, sort second] [sort (first ++ second)]
  | noRestrictions : Move [restrict []] []
  | noOrder : Move [sort []] []
  | swap {d e : Declaration} (h : d.subject ≠ e.subject) : Move [d, e] [e, d]
  | overwriteLimit (n last : Int64) : Move [limit n, limit last] [limit last]
  | overwriteOffset (n last : Int64) : Move [offset n, offset last] [offset last]
  | materialize : Move [materialize] []
  | within {front back : List Declaration} (before after : List Declaration) :
      Move front back → Move (before ++ front ++ after) (before ++ back ++ after)

/-- Moves forth and back, any number of them. -/
abbrev Reshapes : List Declaration → List Declaration → Prop := Relation.EqvGen Move

end Declaration

open Declaration

namespace Scope

/-- What a scope holds in the end, read off the declarations as a whole. -/
def gathered (declared : List Declaration) : Scope where
  restrictions := declared.flatMap Declaration.restrictions
  order := declared.flatMap Declaration.order
  limit := (declared.filterMap limit?).getLast?
  offset := (declared.filterMap offset?).getLast?

private theorem part_foldl_declare {α : Type} {field : Scope → List α} {part : Declaration → List α}
    (hdeclare : ∀ (scope : Scope) d, field (scope.declare d) = field scope ++ part d)
    (declared : List Declaration) (scope : Scope) :
    field (declared.foldl declare scope) = field scope ++ declared.flatMap part := by
  induction declared generalizing scope with
  | nil => simp
  | cons d rest ih => rw [List.foldl_cons, ih, hdeclare, List.flatMap_cons, List.append_assoc]

private theorem restrictions_declare (scope : Scope) (d : Declaration) :
    (scope.declare d).restrictions = scope.restrictions ++ d.restrictions := by
  cases d <;> simp [declare, Declaration.restrictions]

private theorem order_declare (scope : Scope) (d : Declaration) :
    (scope.declare d).order = scope.order ++ d.order := by
  cases d <;> simp [declare, Declaration.order]

theorem foldl_declare_eq_gathered (declared : List Declaration) :
    declared.foldl declare {} = gathered declared := by
  have hrestrictions := part_foldl_declare restrictions_declare declared {}
  have horder := part_foldl_declare order_declare declared {}
  have hlimit := field_foldl_declare limit_declare declared {}
  have hoffset := field_foldl_declare offset_declare declared {}
  rw [List.nil_append] at hrestrictions horder
  rw [Option.or_none] at hlimit hoffset
  rw [gathered, ← hrestrictions, ← horder, ← hlimit, ← hoffset]

def declarations (scope : Scope) : List Declaration :=
  .restrict scope.restrictions :: .sort scope.order ::
    (scope.limit.toList.map .limit ++ scope.offset.toList.map .offset)

end Scope

theorem Criteria.build_eq_materialize_gathered (declared : List Declaration) :
    Criteria.build declared = (Scope.gathered declared).materialize := by
  rw [Criteria.build, Scope.foldl_declare_eq_gathered]

namespace Declaration

variable {declared others front back between : List Declaration} {d e : Declaration}

theorem alike_iff : Alike declared others ↔ Scope.gathered declared = Scope.gathered others := by
  rw [Scope.gathered, Scope.gathered, Scope.mk.injEq]
  constructor
  · intro h
    exact ⟨h.restrictions, h.order, h.limit, h.offset⟩
  · rintro ⟨hrestrictions, horder, hlimit, hoffset⟩
    exact ⟨hrestrictions, horder, hlimit, hoffset⟩

/-! Moves change nothing about what is gathered. -/

private theorem gathered_within (before after : List Declaration)
    (h : Scope.gathered front = Scope.gathered back) :
    Scope.gathered (before ++ front ++ after) = Scope.gathered (before ++ back ++ after) := by
  obtain ⟨hrestrictions, horder, hlimit, hoffset⟩ := alike_iff.mpr h
  simp only [Scope.gathered, List.flatMap_append, List.filterMap_append, List.getLast?_append,
    hrestrictions, horder, hlimit, hoffset]

theorem Move.gathered_eq (h : Move front back) : Scope.gathered front = Scope.gathered back := by
  induction h with
  | mergeRestrictions | mergeOrder =>
    simp [Scope.gathered, Declaration.restrictions, Declaration.order, limit?, offset?]
  | @swap d e h => cases d <;> cases e <;> first | rfl | exact absurd rfl h
  | within before after _ ih => exact gathered_within before after ih
  | noRestrictions | noOrder | overwriteLimit | overwriteOffset | materialize => rfl

theorem Reshapes.gathered_eq (h : Reshapes declared others) :
    Scope.gathered declared = Scope.gathered others := by
  induction h with
  | rel _ _ hmove => exact hmove.gathered_eq
  | refl declared => rfl
  | symm _ _ _ ih => exact ih.symm
  | trans _ _ _ _ _ ih ih' => exact ih.trans ih'

/-! Moves lead from any declarations to one of each kind. -/

theorem Reshapes.within (before after : List Declaration) (h : Reshapes front back) :
    Reshapes (before ++ front ++ after) (before ++ back ++ after) := by
  induction h with
  | rel _ _ hmove => exact .rel _ _ (hmove.within before after)
  | refl declared => exact .refl _
  | symm _ _ _ ih => exact .symm _ _ ih
  | trans _ _ _ _ _ ih ih' => exact .trans _ _ _ ih ih'

theorem Move.reshapes (h : Move front back) (before after : List Declaration) :
    Reshapes (before ++ front ++ after) (before ++ back ++ after) :=
  .rel _ _ (h.within before after)

/-- A declaration moves in front of all that are about something else. -/
theorem reshapes_shift (h : ∀ e ∈ between, e.subject ≠ d.subject) :
    Reshapes (between ++ [d]) (d :: between) := by
  induction between with
  | nil => exact .refl _
  | cons e rest ih =>
    obtain ⟨he, hrest⟩ := List.forall_mem_cons.mp h
    have hinner := (ih hrest).within [e] []
    have houter := (Move.swap he).reshapes [] rest
    simp only [List.append_nil, List.nil_append, List.cons_append] at hinner houter
    exact .trans _ _ _ hinner houter

/-- A declaration merges with an earlier one if nothing in between is about the same. -/
theorem reshapes_merge {merged : Declaration} (hmerge : Move [e, d] [merged])
    (h : ∀ other ∈ between, other.subject ≠ d.subject) (before : List Declaration) :
    Reshapes (before ++ e :: (between ++ [d])) (before ++ merged :: between) := by
  have hshift := (reshapes_shift h).within (before ++ [e]) []
  have hmerged := hmerge.reshapes before between
  simp only [List.append_nil, List.append_assoc, List.cons_append, List.nil_append]
    at hshift hmerged
  exact .trans _ _ _ hshift hmerged

theorem reshapes_declare (scope : Scope) (d : Declaration) :
    Reshapes (scope.declarations ++ [d]) (scope.declare d).declarations := by
  obtain ⟨restrictions, order, limit, offset⟩ := scope
  cases d with
  | restrict criteria =>
    refine reshapes_merge (.mergeRestrictions restrictions criteria) ?_ []
    cases limit <;> cases offset <;> simp [subject]
  | sort items =>
    refine reshapes_merge (.mergeOrder order items) ?_ [.restrict restrictions]
    cases limit <;> cases offset <;> simp [subject]
  | limit n =>
    have hoffset : ∀ other ∈ offset.toList.map Declaration.offset,
        other.subject ≠ (Declaration.limit n).subject := by
      simp [subject]
    cases limit with
    | none =>
      have hshifted := Reshapes.within [.restrict restrictions, .sort order] []
        (reshapes_shift hoffset)
      simpa [Scope.declarations, Scope.declare] using hshifted
    | some last =>
      exact reshapes_merge (.overwriteLimit last n) hoffset [.restrict restrictions, .sort order]
  | offset n =>
    cases offset with
    | none =>
      rw [Scope.declarations, Option.toList_none, List.map_nil, List.append_nil]
      exact .refl _
    | some last =>
      have hmerged := reshapes_merge (.overwriteOffset last n) (List.forall_mem_nil _)
        (.restrict restrictions :: .sort order :: limit.toList.map .limit)
      simpa [Scope.declarations, Scope.declare] using hmerged
  | materialize =>
    have hdropped := Move.materialize.reshapes
      (Scope.declarations ⟨restrictions, order, limit, offset⟩) []
    simpa [Scope.declare] using hdropped

theorem reshapes_foldl_declare (declared : List Declaration) (scope : Scope) :
    Reshapes (scope.declarations ++ declared)
      (declared.foldl Scope.declare scope).declarations := by
  induction declared generalizing scope with
  | nil => rw [List.append_nil]; exact .refl _
  | cons d rest ih =>
    have hfirst := (reshapes_declare scope d).within [] rest
    rw [List.nil_append, List.nil_append, List.append_assoc, List.singleton_append] at hfirst
    exact .trans _ _ _ hfirst (ih (scope.declare d))

theorem reshapes_gathered (declared : List Declaration) :
    Reshapes declared (Scope.gathered declared).declarations := by
  have hnothing : Reshapes [.restrict [], .sort []] [] :=
    .trans _ _ _ (Move.noRestrictions.reshapes [] [.sort []]) (.rel _ _ .noOrder)
  have hstart := Reshapes.within [] declared (hnothing.symm _ _)
  rw [← Scope.foldl_declare_eq_gathered]
  exact .trans _ _ _ hstart (reshapes_foldl_declare declared {})

theorem reshapes_iff_alike : Reshapes declared others ↔ Alike declared others := by
  rw [alike_iff]
  refine ⟨Reshapes.gathered_eq, fun h => ?_⟩
  have hothers := (reshapes_gathered others).symm
  rw [← h] at hothers
  exact .trans _ _ _ (reshapes_gathered declared) hothers

end Declaration

/-! Blocks of a where clause, one after the other. -/

namespace Criterion

variable (truth : Test → Truth)

/-- What everything up to the end of a block means, given what stands before the block. -/
def standing (before : Option Truth) (block : List Criterion) : Option Truth :=
  if block.isEmpty then before else some (meaningAfter truth before block)

/-- The declared meaning of blocks: each goes on from what those before it mean. -/
def meaningOfBlocks (blocks : List (List Criterion)) : Truth :=
  (blocks.foldl (standing truth) none).getD .true

private theorem standing_some (before : Truth) (block : List Criterion) :
    standing truth (some before) block = some (meaningAfter truth (some before) block) := by
  cases block <;> simp [standing, meaningAfter]

private theorem meaningAfter_cons (before : Option Truth) (criterion : Criterion)
    (rest : List Criterion) : meaningAfter truth before (criterion :: rest) =
      meaningAfter truth (some (meaningAfter truth before [criterion])) rest := by
  simp only [meaningAfter, Option.getD_some]

theorem meaningAfter_append (before : Option Truth) (block more : List Criterion) :
    meaningAfter truth before (block ++ more) =
      meaningAfter truth (standing truth before block) more := by
  induction block generalizing before with
  | nil => rfl
  | cons criterion rest ih =>
    rw [List.cons_append, meaningAfter_cons, ih, standing_some, standing, List.isEmpty_cons,
      if_neg Bool.false_ne_true, ← meaningAfter_cons]

theorem standing_append (before : Option Truth) (block more : List Criterion) :
    standing truth before (block ++ more) = standing truth (standing truth before block) more := by
  cases more with
  | nil => simp [standing]
  | cons criterion rest => simp [standing, meaningAfter_append]

theorem meaningOfBlocks_eq (blocks : List (List Criterion)) :
    meaningOfBlocks truth blocks = meaningAfter truth none blocks.flatten := by
  have hfold : ∀ before, blocks.foldl (standing truth) before =
      standing truth before blocks.flatten := by
    induction blocks with
    | nil => intro before; rfl
    | cons block rest ih =>
      intro before
      rw [List.foldl_cons, ih, List.flatten_cons, standing_append]
  rw [meaningOfBlocks, hfold]
  cases blocks.flatten <;> rfl

end Criterion

/-- Declarations that come to the same, which are those that moves connect, build the same criteria
or are refused for the same fault. What is built means what the blocks mean one after another, into
whichever blocks the where clause was cut. -/
theorem Criteria.build_seamless (declared others : List Declaration) :
    (Reshapes declared others ↔ Alike declared others) ∧
      (Alike declared others → Criteria.build declared = Criteria.build others ∧
        ∀ criteria, Criteria.build declared = .ok criteria → ∀ truth,
          Criterion.meaningAfter truth none criteria.restrictions =
            Criterion.meaningOfBlocks truth (others.map Declaration.restrictions)) := by
  refine ⟨reshapes_iff_alike, fun h => ?_⟩
  have hgathered := alike_iff.mp h
  constructor
  · rw [build_eq_materialize_gathered, build_eq_materialize_gathered, hgathered]
  · intro criteria hcriteria truth
    rw [build_eq_materialize_gathered, hgathered, Scope.materialize_eq] at hcriteria
    obtain ⟨⟨⟩, -, rfl⟩ := Except.map_eq_ok_iff.mp hcriteria
    rw [Criterion.meaningOfBlocks_eq, ← List.flatMap_def]
    rfl

/-- Two tests and a group in several blocks, with a limit that is overwritten while the scope does
not pass the checks, and a block that starts with the `or` group. -/
def inFragments : List Declaration := [
  .limit (-1), .restrict [.test (.isNull false "a")], .sort [⟨"a", .asc, none⟩], .materialize,
  .offset 3, .restrict [], .limit 5,
  .restrict [.group .or [.test (.isNull false "b")], .test (.isNull true "c")],
  .sort [⟨"b", .desc, some .last⟩]]

def inOnePiece : List Declaration := [
  .restrict [.test (.isNull false "a"), .group .or [.test (.isNull false "b")],
    .test (.isNull true "c")],
  .sort [⟨"a", .asc, none⟩, ⟨"b", .desc, some .last⟩], .offset 3, .limit 5]

theorem inFragments_seamless :
    Scope.snapshots {} inFragments = [.error (.negativeLimit (-1))] ∧
    Alike inFragments inOnePiece ∧ Reshapes inFragments inOnePiece ∧
    Criteria.build inFragments = Criteria.build inOnePiece ∧
    ∃ criteria, Criteria.build inFragments = .ok criteria ∧ ∀ truth,
      Criterion.meaningAfter truth none criteria.restrictions =
        ((truth (.isNull false "a")).or (truth (.isNull false "b"))).and
          (truth (.isNull true "c")) := by
  have halike : Alike inFragments inOnePiece := ⟨rfl, rfl, rfl, rfl⟩
  obtain ⟨hreshapes, hbuild⟩ := Criteria.build_seamless inFragments inOnePiece
  obtain ⟨hsame, hmeaning⟩ := hbuild halike
  exact ⟨rfl, halike, hreshapes.mpr halike, hsame, _, rfl, fun truth => hmeaning _ rfl truth⟩

end EntitySql
