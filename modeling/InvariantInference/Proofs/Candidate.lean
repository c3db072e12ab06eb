import Mathlib
import InvariantInference.Candidate
import InvariantInference.Proofs.Dictionary
import InvariantInference.Proofs.Except

/-!
# Candidates of accepted programs

Candidates are collected in two passes: existential constants are added one after
the other, with the places where they are declared, and then all declarations are
compared with what was added. Together the passes accept a program iff no
existential constant has another type than `bool` or a name that some other
declaration has, wherever it stands.
-/

namespace InvariantInference

theorem find?_reverse_eq_some_iff {α : Type} {q : α → Bool} {l : List α} {a : α} :
    l.reverse.find? q = some a ↔
      q a ∧ ∃ before after, l = before ++ a :: after ∧ ∀ later ∈ after, ¬ q later := by
  rw [List.find?_eq_some_iff_append]
  refine and_congr_right fun _ => ⟨?_, ?_⟩
  · rintro ⟨after, before, split, others⟩
    refine ⟨before.reverse, after.reverse, ?_, by simpa using others⟩
    rw [← List.reverse_inj, split]
    simp
  · rintro ⟨before, after, split, others⟩
    exact ⟨after.reverse, before.reverse, by simp [split], by simpa using others⟩

namespace Constant

variable {c : Constant}

/-- Only the last attribute of a name counts; it is true if it is a flag or says so. -/
theorem boolAttribute?_eq_true_iff {key : String} :
    c.boolAttribute? key = some true ↔
      ∃ before a after, c.attributes = before ++ a :: after ∧ a.key.value = key ∧
        (∀ later ∈ after, later.key.value ≠ key) ∧ (a.value = .flag ∨ a.value = .bool true) := by
  have last : ∀ a, c.attributes.reverse.find? (·.key.value = key) = some a ↔
      a.key.value = key ∧ ∃ before after, c.attributes = before ++ a :: after ∧
        ∀ later ∈ after, later.key.value ≠ key := by
    intro a
    rw [find?_reverse_eq_some_iff]
    simp
  unfold boolAttribute?
  constructor
  · intro decided
    cases found : c.attributes.reverse.find? (·.key.value = key) with
    | none => simp [found] at decided
    | some a =>
      obtain ⟨named, before, after, split, others⟩ := (last a).mp found
      refine ⟨before, a, after, split, named, others, ?_⟩
      obtain ⟨span, name, value⟩ := a
      rw [found] at decided
      cases value <;> simp_all
  · rintro ⟨before, ⟨span, name, value⟩, after, split, named, others, holds⟩
    rw [(last _).mpr ⟨named, before, after, split, others⟩]
    rcases holds with rfl | rfl <;> rfl

/-- The last of the attributes `existential` is a bare flag or true. -/
def Existential (c : Constant) : Prop :=
  ∃ before a after, c.attributes = before ++ a :: after ∧ a.key.value = "existential" ∧
    (∀ later ∈ after, later.key.value ≠ "existential") ∧ (a.value = .flag ∨ a.value = .bool true)

theorem isExistential_iff : c.isExistential ↔ c.Existential := by
  rw [isExistential, decide_eq_true_eq]
  exact boolAttribute?_eq_true_iff

instance : DecidablePred Existential := fun _ => decidable_of_iff _ isExistential_iff

end Constant

namespace Declaration

variable {d : Declaration}

theorem constant?_eq_some_iff {c : Constant} : d.constant? = some c ↔ d = .constant c := by
  cases d <;> simp [constant?]

/-- The existential constant that is declared. -/
def candidate? (d : Declaration) : Option Constant := d.constant?.filter (·.Existential)

theorem candidate?_eq_some_iff {c : Constant} :
    d.candidate? = some c ↔ d = .constant c ∧ c.Existential := by
  rw [candidate?, Option.filter_eq_some_iff, constant?_eq_some_iff, decide_eq_true_eq]

end Declaration

namespace Program

/-- The existential constants, in order of declaration. -/
def existentials (p : Program) : List Constant := p.constants.filter (·.Existential)

/-- Every existential constant is boolean, and no other declaration has its name. -/
def Unambiguous (p : Program) : Prop :=
  ∀ (n : Nat) (c : Constant), p.declarations[n]? = some (.constant c) → c.Existential →
    c.type = .bool ∧ ∀ (m : Nat) (d : Declaration), m ≠ n → p.declarations[m]? = some d →
      d.name.value ≠ c.name.value

variable {p : Program}

theorem existentials_eq_filterMap (p : Program) :
    p.existentials = p.declarations.filterMap (·.candidate?) := by
  rw [existentials, constants, List.filter_filterMap]
  rfl

/-- It does not matter for the candidates whether the declarations are numbered. -/
theorem existentials_eq_filterMap_zipIdx (p : Program) :
    p.existentials = p.declarations.zipIdx.filterMap (·.1.candidate?) := by
  have forgotten : p.declarations = p.declarations.zipIdx.map Prod.fst := by
    rw [List.zipIdx_map_fst]
  rw [existentials_eq_filterMap]
  nth_rewrite 1 [forgotten]
  rw [List.filterMap_map]
  rfl

theorem mem_existentials {c : Constant} :
    c ∈ p.existentials ↔ Declaration.constant c ∈ p.declarations ∧ c.Existential := by
  simp [existentials_eq_filterMap, Declaration.candidate?_eq_some_iff]

/-- Distinct names of existential constants are compared by position, since a declaration
    may be repeated as it is. -/
theorem nodup_existentials_iff :
    (p.existentials.map (·.name.value)).Nodup ↔
      p.declarations.Pairwise fun d d' => ∀ c, d.candidate? = some c →
        ∀ c', d'.candidate? = some c' → c.name.value ≠ c'.name.value := by
  rw [existentials_eq_filterMap, List.Nodup, List.pairwise_map, List.pairwise_filterMap]

theorem Unambiguous.distinct (unambiguous : p.Unambiguous) :
    (p.existentials.map (·.name.value)).Nodup := by
  rw [nodup_existentials_iff, List.pairwise_iff_getElem]
  intro i j i_lt j_lt before c first c' second
  obtain ⟨at_i, existential⟩ := Declaration.candidate?_eq_some_iff.mp first
  obtain ⟨at_j, -⟩ := Declaration.candidate?_eq_some_iff.mp second
  have place : p.declarations[i]? = some (.constant c) := by
    rw [List.getElem?_eq_getElem i_lt, at_i]
  have place' : p.declarations[j]? = some (.constant c') := by
    rw [List.getElem?_eq_getElem j_lt, at_j]
  have other : j ≠ i := by omega
  exact ((unambiguous i c place existential).2 j _ other place').symm

end Program

/-! ## The passes -/

namespace Collection

variable {own : List (Located String × Nat)} {l : List (Declaration × Nat)} {c : Collection}

/-- The collection of candidates that are declared at some places. -/
def ofOwned (own : List (Located String × Nat)) : Collection where
  members := own.map (·.1)
  index := ⟨(own.map (·.1.value)).zipIdx⟩
  owners := own.map (·.2)

/-- The candidates that are declared among some declarations, with their places. -/
def owned (l : List (Declaration × Nat)) : List (Located String × Nat) :=
  l.filterMap fun (d, place) => d.candidate?.map fun c => (c.name, place)

theorem names_index_ofOwned (own : List (Located String × Nat)) :
    (ofOwned own).index.names = own.map (·.1.value) := by
  rw [Dictionary.names, ofOwned, List.zipIdx_map_fst]

theorem isSome_index_ofOwned {name : String} :
    ((ofOwned own).index.get? name).isSome ↔ name ∈ own.map (·.1.value) := by
  rw [← names_index_ofOwned, Dictionary.mem_names_iff, Option.isSome_iff_exists]

/-- A candidate of a new name comes last in all that is collected. -/
theorem extend_ofOwned {name : Located String} (new : name.value ∉ own.map (·.1.value))
    (place : Nat) : (ofOwned own).extend name place = ofOwned (own ++ [(name, place)]) := by
  rw [← names_index_ofOwned] at new
  have index : (ofOwned own).index.insert name.value (ofOwned own).members.length =
      (ofOwned (own ++ [(name, place)])).index := by
    refine congrArg Dictionary.mk ((Dictionary.entries_alter_of_new _ new).trans ?_)
    simp [ofOwned, List.zipIdx_append]
  rw [extend, index]
  simp [ofOwned]

/-- Other declarations are passed over. -/
theorem add_of_none {d : Declaration} (ordinary : d.candidate? = none) (place : Nat) :
    c.add (d, place) = .ok c := by
  cases d with
  | constant k =>
    have plain : k.isExistential = false := by
      rw [Bool.eq_false_iff, Ne, Constant.isExistential_iff]
      intro existential
      rw [Declaration.candidate?_eq_some_iff.mpr ⟨rfl, existential⟩] at ordinary
      cases ordinary
    simp [add, plain]
  | _ => rfl

/-- An existential constant is added if it is boolean and has a new name. -/
theorem add_ofOwned_eq_ok_iff {d : Declaration} {k : Constant} (declared : d.candidate? = some k)
    {place : Nat} :
    (ofOwned own).add (d, place) = .ok c ↔ k.type = .bool ∧
      k.name.value ∉ own.map (·.1.value) ∧ c = ofOwned (own ++ [(k.name, place)]) := by
  obtain ⟨rfl, existential⟩ := Declaration.candidate?_eq_some_iff.mp declared
  rw [add, Constant.isExistential_iff.mpr existential, Bool.not_true, if_neg Bool.false_ne_true]
  by_cases boolean : k.type = .bool
  · rw [if_neg (not_not.mpr boolean)]
    by_cases known : k.name.value ∈ own.map (·.1.value)
    · rw [if_pos (isSome_index_ofOwned.mpr known)]
      simp only [known, not_true_eq_false, false_and, and_false, reduceCtorEq]
    · rw [if_neg (mt isSome_index_ofOwned.mp known), extend_ofOwned known, Except.ok.injEq]
      simp only [boolean, known, not_false_eq_true, true_and, eq_comm]
  · simp [boolean]

/-- The first pass succeeds if the candidates are boolean and have distinct names. -/
theorem foldlM_add_eq_ok_iff (distinct : (own.map (·.1.value)).Nodup) :
    l.foldlM add (ofOwned own) = .ok c ↔
      (∀ k ∈ l.filterMap (·.1.candidate?), k.type = .bool) ∧
        ((own ++ owned l).map (·.1.value)).Nodup ∧ c = ofOwned (own ++ owned l) := by
  induction l generalizing own with
  | nil =>
    have none : owned [] = [] := rfl
    rw [none, List.append_nil]
    simp [pure, Except.pure, distinct, eq_comm]
  | cons first l ih =>
    obtain ⟨d, place⟩ := first
    rw [List.foldlM_cons, bind_eq_ok_iff, List.filterMap_cons]
    cases declared : d.candidate? with
    | none =>
      have skipped : owned ((d, place) :: l) = owned l := by simp [owned, declared]
      simp only [add_of_none declared, Except.ok.injEq, exists_eq_left', skipped, ih distinct]
    | some k =>
      have listed : owned ((d, place) :: l) = (k.name, place) :: owned l := by
        simp [owned, declared]
      simp only [add_ofOwned_eq_ok_iff declared, List.forall_mem_cons]
      rw [listed, List.append_cons own (k.name, place) (owned l)]
      by_cases known : k.name.value ∈ own.map (·.1.value)
      · have clash : ¬ ((own ++ [(k.name, place)] ++ owned l).map (·.1.value)).Nodup := by
          rw [← List.append_cons, List.map_append, List.nodup_append]
          exact fun ⟨_, _, apart⟩ => apart _ known _ (by simp) rfl
        simp only [known, clash, not_true_eq_false, false_and, and_false, exists_false]
      · have distinct' : ((own ++ [(k.name, place)]).map (·.1.value)).Nodup := by
          rw [List.map_append, List.map_singleton, ← List.concat_eq_append]
          exact distinct.concat known
        constructor
        · rintro ⟨_, ⟨boolean, -, rfl⟩, added⟩
          obtain ⟨others, names, rfl⟩ := (ih distinct').mp added
          exact ⟨⟨boolean, others⟩, names, rfl⟩
        · rintro ⟨⟨boolean, others⟩, names, rfl⟩
          exact ⟨_, ⟨boolean, known, rfl⟩, (ih distinct').mpr ⟨others, names, rfl⟩⟩

/-- In the second pass a declaration is compared with the candidate of its name, if there is
    one. -/
theorem refuseCollision_ofOwned_eq_ok_iff (distinct : (own.map (·.1.value)).Nodup)
    {d : Declaration} {place : Nat} :
    (ofOwned own).refuseCollision (d, place) = .ok () ↔
      ∀ entry ∈ own, entry.1.value = d.name.value → entry.2 = place := by
  have indexed : ∀ number, (ofOwned own).index.get? d.name.value = some number ↔
      ∃ entry, own[number]? = some entry ∧ entry.1.value = d.name.value := by
    intro number
    rw [← Dictionary.mem_entries_iff (by rwa [names_index_ofOwned]), ofOwned,
      List.mem_zipIdx_iff_getElem?, List.getElem?_map, Option.map_eq_some_iff]
  simp only [refuseCollision]
  cases found : (ofOwned own).index.get? d.name.value with
  | none =>
    refine iff_of_true rfl fun entry member same => ?_
    obtain ⟨number, place⟩ := List.mem_iff_getElem?.mp member
    rw [(indexed number).mpr ⟨entry, place, same⟩] at found
    cases found
  | some number =>
    obtain ⟨entry, listed, named⟩ := (indexed number).mp found
    have owner : (ofOwned own).owners[number]? = some entry.2 := by simp [ofOwned, listed]
    simp only [owner, Option.some.injEq]
    constructor
    · intro passed other member same
      -- No other candidate has the name.
      have only : other = entry := List.inj_on_of_nodup_map distinct member
        (List.mem_of_getElem? listed) (same.trans named.symm)
      rw [only]
      by_contra elsewhere
      rw [if_neg elsewhere] at passed
      cases passed
    · intro alone
      rw [if_pos (alone entry (List.mem_of_getElem? listed) named)]

theorem mem_owned_zipIdx {ds : List Declaration} {name : Located String} {place : Nat} :
    (name, place) ∈ owned ds.zipIdx ↔
      ∃ c : Constant, ds[place]? = some (.constant c) ∧ c.Existential ∧ c.name = name := by
  simp only [owned, List.mem_filterMap, Prod.exists, List.mem_zipIdx_iff_getElem?,
    Option.map_eq_some_iff, Declaration.candidate?_eq_some_iff, Prod.mk.injEq]
  constructor
  · rintro ⟨_, _, declared, c, ⟨rfl, existential⟩, rfl, rfl⟩
    exact ⟨c, declared, existential, rfl⟩
  · rintro ⟨c, declared, existential, rfl⟩
    exact ⟨_, place, declared, c, ⟨rfl, existential⟩, rfl, rfl⟩

theorem map_owned_zipIdx {β : Type} (f : Located String → β) (p : Program) :
    (owned p.declarations.zipIdx).map (fun entry => f entry.1) =
      p.existentials.map (fun c => f c.name) := by
  rw [p.existentials_eq_filterMap_zipIdx, owned, List.map_filterMap, List.map_filterMap]
  congr 1
  funext ⟨d, place⟩
  simp [Function.comp_def]

/-- The second pass succeeds if no declaration has the name of a candidate that is declared
    elsewhere. -/
theorem forM_refuseCollision_eq_ok_iff {p : Program}
    (distinct : (p.existentials.map (·.name.value)).Nodup) :
    p.declarations.zipIdx.forM (ofOwned (owned p.declarations.zipIdx)).refuseCollision = .ok () ↔
      ∀ (n : Nat) (k : Constant), p.declarations[n]? = some (.constant k) → k.Existential →
        ∀ (m : Nat) (d : Declaration), m ≠ n → p.declarations[m]? = some d →
          d.name.value ≠ k.name.value := by
  rw [← map_owned_zipIdx (·.value)] at distinct
  rw [List.forM_eq_forM, forM_eq_ok_iff]
  constructor
  · intro passed n k owner existential m d other declared same
    have compared := (refuseCollision_ofOwned_eq_ok_iff distinct).mp
      (passed (d, m) (List.mem_zipIdx_iff_getElem?.mpr declared))
    exact other (compared (k.name, n) (mem_owned_zipIdx.mpr ⟨k, owner, existential, rfl⟩)
      same.symm).symm
  · rintro apart ⟨d, m⟩ member
    rw [refuseCollision_ofOwned_eq_ok_iff distinct]
    rintro ⟨name, n⟩ listed same
    obtain ⟨k, owner, existential, rfl⟩ := mem_owned_zipIdx.mp listed
    by_contra other
    exact apart n k owner existential m d (Ne.symm other)
      (List.mem_zipIdx_iff_getElem?.mp member) same.symm

end Collection

namespace Candidates

variable {p : Program} {cs : Candidates}

theorem names_existentials :
    names ⟨p.existentials.map (·.name)⟩ = p.existentials.map (·.name.value) := by
  simp [names]

/-- Candidates are collected from the unambiguous programs, and are their existential
    constants. -/
theorem collect_eq_ok_iff :
    collect p = .ok cs ↔ p.Unambiguous ∧ cs = ⟨p.existentials.map (·.name)⟩ := by
  have added : ∀ c, p.declarations.zipIdx.foldlM Collection.add .empty = .ok c ↔
      (∀ k ∈ p.existentials, k.type = .bool) ∧ (p.existentials.map (·.name.value)).Nodup ∧
        c = .ofOwned (Collection.owned p.declarations.zipIdx) := by
    intro c
    rw [← Collection.map_owned_zipIdx (·.value), p.existentials_eq_filterMap_zipIdx]
    exact @Collection.foldlM_add_eq_ok_iff [] p.declarations.zipIdx c List.nodup_nil
  have members : (Collection.ofOwned (Collection.owned p.declarations.zipIdx)).members =
      p.existentials.map (·.name) := Collection.map_owned_zipIdx id p
  unfold collect
  rw [bind_eq_ok_iff]
  constructor
  · rintro ⟨_, collected, rest⟩
    obtain ⟨typed, distinct, rfl⟩ := (added _).mp collected
    obtain ⟨passed, same⟩ := check_bind_eq_ok_iff.mp rest
    cases same
    have apart := (Collection.forM_refuseCollision_eq_ok_iff distinct).mp passed
    refine ⟨fun n k declared existential => ⟨?_, apart n k declared existential⟩, by rw [members]⟩
    exact typed k (Program.mem_existentials.mpr ⟨List.mem_of_getElem? declared, existential⟩)
  · rintro ⟨unambiguous, rfl⟩
    have distinct := unambiguous.distinct
    refine ⟨_, (added _).mpr ⟨fun k member => ?_, distinct, rfl⟩,
      check_bind_eq_ok_iff.mpr ⟨?_, by rw [members]; rfl⟩⟩
    · obtain ⟨declared, existential⟩ := Program.mem_existentials.mp member
      obtain ⟨n, place⟩ := List.mem_iff_getElem?.mp declared
      exact (unambiguous n k place existential).1
    · rw [Collection.forM_refuseCollision_eq_ok_iff distinct]
      exact fun n k declared existential => (unambiguous n k declared existential).2

/-- No candidate is collected twice. -/
theorem nodup_names_collect (collected : collect p = .ok cs) : cs.names.Nodup := by
  obtain ⟨unambiguous, rfl⟩ := collect_eq_ok_iff.mp collected
  rw [names_existentials]
  exact unambiguous.distinct

/-- A program without existential constants has no candidates. -/
theorem eq_empty_of_collect (collected : collect p = .ok cs)
    (none : ∀ c ∈ p.constants, c.isExistential = false) : cs = empty := by
  obtain ⟨-, rfl⟩ := collect_eq_ok_iff.mp collected
  have ordinary : p.existentials = [] := by
    rw [Program.existentials, List.filter_eq_nil_iff]
    intro c declared
    simp [← Constant.isExistential_iff, none c declared]
  rw [ordinary]
  rfl

/-- Candidates are collected from exactly the unambiguous programs: they are the existential
    constants, each once and in order of declaration. -/
theorem collect_accepts_unambiguous (p : Program) :
    ((∃ cs, collect p = .ok cs) ↔ p.Unambiguous) ∧
      ∀ cs, collect p = .ok cs →
        cs.names = p.existentials.map (·.name.value) ∧ cs.names.Nodup ∧
          ∀ name, cs.contains name ↔ ∃ c ∈ p.constants, c.Existential ∧ c.name.value = name := by
  refine ⟨⟨?_, ?_⟩, fun cs collected => ?_⟩
  · rintro ⟨cs, collected⟩
    exact (collect_eq_ok_iff.mp collected).1
  · intro unambiguous
    exact ⟨_, collect_eq_ok_iff.mpr ⟨unambiguous, rfl⟩⟩
  · have distinct := nodup_names_collect collected
    obtain ⟨-, rfl⟩ := collect_eq_ok_iff.mp collected
    refine ⟨names_existentials, distinct, fun name => ?_⟩
    rw [contains, names_existentials]
    simp [Program.existentials, and_assoc]

/-- Two existential constants around one that is existential no longer, by its last attribute. -/
def overridden : Program :=
  let existential (value : AttributeValue) : Attribute := ⟨.none, .synthetic "existential", value⟩
  let constant (name : String) (type : ConstantType) (values : List AttributeValue) : Declaration :=
    .constant ⟨.none, .synthetic name, type, values.map existential⟩
  ⟨[constant "B" .bool [.bool false, .flag], .procedure ⟨.none, .synthetic "Main", [], []⟩,
    constant "limit" .int [.flag, .str "no"], constant "A" .bool [.int 3, .bool true]]⟩

/-- Candidates keep the order of declaration, whatever their names. -/
theorem collect_accepts_unambiguous_overridden :
    overridden.Unambiguous ∧ ∃ cs, collect overridden = .ok cs ∧ cs.names = ["B", "A"] ∧
      overridden.existentials.map (·.name.value) = ["B", "A"] ∧
      ¬ ∃ c ∈ overridden.constants, c.Existential ∧ c.name.value = "limit" := by
  have collected : collect overridden = .ok ⟨[.synthetic "B", .synthetic "A"]⟩ := rfl
  obtain ⟨same, -, member⟩ := (collect_accepts_unambiguous overridden).2 _ collected
  refine ⟨(collect_accepts_unambiguous overridden).1.mp ⟨_, collected⟩, _, collected, rfl,
    same.symm, ?_⟩
  rw [← member "limit"]
  decide

end Candidates

end InvariantInference
