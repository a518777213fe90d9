import Lalr1.Fixpoint
import Lalr1.Parser

/-!
# Parse trees, and what the analyses say about them

A parse tree of a grammar is a `ParseNode` as `parse_internal` builds it: a terminal of the table
with its lexeme and no children, or a node of the left-hand side of a production, with an empty
lexeme, whose children are trees for the symbols of the right-hand side in order (none for an
empty right-hand side). Its yield is the list of its terminal nodes, left to right.

At their fixpoints the analyses are sound for trees: a tree with an empty yield has a nullable
root with ε in its FIRST set (`IsTree.nullable`, `IsTree.epsilon_mem_first`), and the first
terminal of a yield is in the FIRST set of the root (`IsTree.mem_first`). So every symbol that
has a tree has a non-empty FIRST set (`IsTree.first_ne_nil`).
-/

namespace Lalr1

namespace ParseNode

mutual

/-- The terminal nodes of a tree, left to right, with their lexemes. -/
def yield : ParseNode → List (Symbol × String)
  | mk s v cs => if s.isTerminal then [(s, v)] else yieldList cs

/-- The yields of a list of trees, one after the other. -/
def yieldList : List ParseNode → List (Symbol × String)
  | [] => []
  | c :: cs => yield c ++ yieldList cs

end

@[simp] theorem yieldList_eq_flatMap (cs : List ParseNode) : yieldList cs = cs.flatMap yield := by
  induction cs with
  | nil => rfl
  | cons c cs ih => simp [yieldList, ih]

@[simp] theorem symbol_mk (s : Symbol) (v : String) (cs : List ParseNode) :
    (mk s v cs).symbol = s := rfl

/-- A parse tree of the productions `prods` over the terminals `terminals`. -/
inductive IsTree (terminals : List Symbol) (prods : List Production) : ParseNode → Prop
  | leaf {a : Symbol} (v : String) : a ∈ terminals → IsTree terminals prods (mk a v [])
  | node {p : Production} {cs : List ParseNode} : p ∈ prods → p.lhs.isNonterminal = true →
      cs.map symbol = p.rhs → (∀ c ∈ cs, IsTree terminals prods c) →
      IsTree terminals prods (mk p.lhs "" cs)

variable {terminals : List Symbol} {prods : List Production} {tr : ParseNode}

theorem IsTree.mono {terminals' : List Symbol} {prods' : List Production}
    (ht : terminals ⊆ terminals') (hp : prods ⊆ prods') (h : IsTree terminals prods tr) :
    IsTree terminals' prods' tr := by
  induction h with
  | leaf v ha => exact .leaf v (ht ha)
  | node hq hnt hcs _ ih => exact .node (hp hq) hnt hcs ih

theorem isTerminal_of_mem_yield : ∀ (tr : ParseNode) {y : Symbol × String}, y ∈ tr.yield →
    y.1.isTerminal = true
  | mk s v cs, y, hy => by
    unfold yield at hy
    split at hy
    · rename_i hs
      obtain rfl := List.mem_singleton.mp hy
      exact hs
    · rw [yieldList_eq_flatMap, List.mem_flatMap] at hy
      obtain ⟨c, hc, hy⟩ := hy
      have : sizeOf c < sizeOf (mk s v cs) := by
        have := List.sizeOf_lt_of_mem hc
        simp only [mk.sizeOf_spec]
        omega
      exact isTerminal_of_mem_yield c hy
termination_by tr => sizeOf tr

theorem yield_mk_of_isTerminal {s : Symbol} (hs : s.isTerminal = true) (v : String)
    (cs : List ParseNode) : (mk s v cs).yield = [(s, v)] := by
  simp [yield, hs]

theorem yield_mk_of_isNonterminal {s : Symbol} (hs : s.isNonterminal = true) (v : String)
    (cs : List ParseNode) : (mk s v cs).yield = cs.flatMap yield := by
  have : s.isTerminal = false := by
    simp only [Symbol.isNonterminal_iff] at hs
    simp [Symbol.isTerminal, hs]
  simp [yield, this]

/-- The leaves of a tree are terminals of the table. -/
theorem IsTree.yield_mem (h : IsTree terminals prods tr) : ∀ y ∈ tr.yield, y.1 ∈ terminals := by
  induction h with
  | @leaf a v ha =>
    intro y hy
    unfold yield at hy
    split at hy
    · obtain rfl := List.mem_singleton.mp hy
      exact ha
    · simp at hy
  | @node p cs _ hnt _ _ ih =>
    intro y hy
    rw [yield_mk_of_isNonterminal hnt, List.mem_flatMap] at hy
    obtain ⟨c, hc, hy⟩ := hy
    exact ih c hc y hy

end ParseNode

/-! ## FIRST of sequences -/

section AddFirst

variable {eps : Symbol → Bool} {first : Symbol → List Symbol}

theorem mem_addFirstOfSeq_of_acc {y : Symbol} {xs acc : List Symbol} (h : y ∈ acc) :
    y ∈ addFirstOfSeq eps first xs acc :=
  (suffix_addFirstOfSeq first xs acc).subset h

/-- A symbol of `FIRST(x) − {ε}` is added when the symbols before `x` are nullable. -/
theorem mem_addFirstOfSeq_of_first {y x : Symbol} (hy : y ∈ first x)
    (hne : y.isEpsilon = false) (zs : List Symbol) :
    ∀ (ys acc : List Symbol), (∀ z ∈ ys, eps z = true) → y ∈ addFirstOfSeq eps first (ys ++ x :: zs) acc
  | [], acc, _ => by
    have h : y ∈ (first x).filter (fun y => !y.isEpsilon) ∪ acc :=
      List.mem_union_left (List.mem_filter.mpr ⟨hy, by simp [hne]⟩) _
    simp only [List.nil_append]
    unfold addFirstOfSeq
    split
    · exact h
    · split
      · exact List.mem_insert_of_mem h
      · exact mem_addFirstOfSeq_of_acc h
  | z :: ys, acc, hys => by
    have hz : eps z = true := hys z (List.mem_cons_self z ys)
    have := mem_addFirstOfSeq_of_first hy hne zs ys ((first z).filter (fun y => !y.isEpsilon) ∪ acc)
      fun w hw => hys w (List.mem_cons_of_mem z hw)
    simp only [List.cons_append]
    unfold addFirstOfSeq
    rw [if_neg (by simp [hz])]
    split
    · rename_i h
      simp at h
    · simpa using this

/-- ε is added when every symbol is nullable. -/
theorem epsilon_mem_addFirstOfSeq : ∀ (xs acc : List Symbol), xs ≠ [] → (∀ z ∈ xs, eps z = true) →
    epsilonSymbol ∈ addFirstOfSeq eps first xs acc
  | [], _, h, _ => absurd rfl h
  | x :: rest, acc, _, hall => by
    have hx : eps x = true := hall x (List.mem_cons_self x rest)
    unfold addFirstOfSeq
    rw [if_neg (by simp [hx])]
    split
    · exact List.mem_insert_self _ _
    · exact epsilon_mem_addFirstOfSeq _ _ (List.cons_ne_nil _ _)
        fun z hz => hall z (List.mem_cons_of_mem x hz)

end AddFirst

/-- The first non-empty piece of a concatenation. -/
theorem exists_first_of_flatMap_eq_cons {α β : Type} (f : α → List β) {x : β} {rest : List β} :
    ∀ {l : List α}, l.flatMap f = x :: rest →
      ∃ l₁ y l₂, l = l₁ ++ y :: l₂ ∧ (∀ z ∈ l₁, f z = []) ∧ ∃ r, f y = x :: r
  | [], h => by simp at h
  | y :: l, h => by
    rw [List.flatMap_cons] at h
    cases hy : f y with
    | nil =>
      rw [hy, List.nil_append] at h
      obtain ⟨l₁, z, l₂, rfl, hnil, hz⟩ := exists_first_of_flatMap_eq_cons f h
      exact ⟨y :: l₁, z, l₂, rfl, fun w hw => (List.mem_cons.mp hw).elim (· ▸ hy) (hnil w), hz⟩
    | cons x' r =>
      rw [hy, List.cons_append, List.cons.injEq] at h
      exact ⟨[], y, l, rfl, by simp, r, h.1 ▸ hy⟩

/-! ## The analyses on trees -/

namespace ParseNode

variable {t : SymbolTable} {prods : List Production} {tr : ParseNode}

/-- A tree with an empty yield has a nullable root. -/
theorem IsTree.nullable (h : IsTree t.getTerminals prods tr) (hy : tr.yield = []) :
    computeEpsilonDerivers prods tr.symbol = true := by
  induction h with
  | leaf v ha =>
    simp [yield, (List.mem_filter.mp ha).2] at hy
  | @node p cs hp hnt hcs hchildren ih =>
    rw [yield_mk_of_isNonterminal hnt, List.flatMap_eq_nil_iff] at hy
    refine computeEpsilonDerivers_closed hp (.inr ?_)
    rw [← hcs, List.all_eq_true]
    intro x hx
    obtain ⟨c, hc, rfl⟩ := List.mem_map.mp hx
    have hnt' : c.symbol.isNonterminal = true := by
      cases hchildren c hc with
      | leaf v ha => simpa [yield, (List.mem_filter.mp ha).2] using hy _ hc
      | node _ hnt'' _ _ => exact hnt''
    simp only [Symbol.isNonterminal_iff] at hnt'
    simp [Symbol.isTerminal, Symbol.isEndOfInput, hnt', ih c hc (hy c hc)]

/-- The symbols of a list of trees with empty yields are nullable. -/
theorem nullable_of_forall {cs : List ParseNode} (hcs : ∀ c ∈ cs, IsTree t.getTerminals prods c)
    (hy : ∀ c ∈ cs, c.yield = []) : ∀ z ∈ cs.map symbol, computeEpsilonDerivers prods z = true := by
  intro z hz
  obtain ⟨c, hc, rfl⟩ := List.mem_map.mp hz
  exact (hcs c hc).nullable (hy c hc)

/-- A tree with an empty yield has ε in the FIRST set of its root. -/
theorem IsTree.epsilon_mem_first (h : IsTree t.getTerminals prods tr) (hy : tr.yield = []) :
    epsilonSymbol ∈ computeFirstSets t prods (computeEpsilonDerivers prods) tr.symbol := by
  cases h with
  | leaf v ha => simp [yield, (List.mem_filter.mp ha).2] at hy
  | @node p cs hp hnt hcs hchildren =>
    rw [yield_mk_of_isNonterminal hnt, List.flatMap_eq_nil_iff] at hy
    rw [symbol_mk, ← firstStep_quiet_eq (computeFirstSets_closed hp)]
    split
    · exact List.mem_insert_self _ _
    · rename_i hne
      refine epsilon_mem_addFirstOfSeq _ _ (by simpa using hne) ?_
      rw [← hcs]
      exact nullable_of_forall hchildren hy

/-- The first terminal of the yield of a tree is in the FIRST set of its root. -/
theorem IsTree.mem_first (h : IsTree t.getTerminals prods tr) {a : Symbol} {v : String}
    {rest : List (Symbol × String)} (hy : tr.yield = (a, v) :: rest) :
    a ∈ computeFirstSets t prods (computeEpsilonDerivers prods) tr.symbol := by
  induction h generalizing rest with
  | leaf v' ha =>
    simp only [yield, (List.mem_filter.mp ha).2, if_true, List.cons.injEq, Prod.mk.injEq] at hy
    obtain ⟨⟨rfl, -⟩, -⟩ := hy
    exact mem_computeFirstSets_self ha
  | @node p cs hp hnt hcs hchildren ih =>
    rw [yield_mk_of_isNonterminal hnt] at hy
    obtain ⟨cs₁, c, cs₂, rfl, hnil, r, hc⟩ := exists_first_of_flatMap_eq_cons yield hy
    have hmem : c ∈ cs₁ ++ c :: cs₂ := List.mem_append_right _ (List.mem_cons_self c cs₂)
    have hterm : a.isTerminal = true := isTerminal_of_mem_yield c (y := (a, v)) (by simp [hc])
    rw [symbol_mk, ← firstStep_quiet_eq (computeFirstSets_closed hp), if_neg (by simp [← hcs])]
    rw [← hcs, List.map_append, List.map_cons]
    refine mem_addFirstOfSeq_of_first (ih c hmem hc) ?_ _ _ _
      (nullable_of_forall (fun d hd => hchildren d (List.mem_append_left _ hd)) hnil)
    simp only [Symbol.isTerminal_iff] at hterm
    simp [Symbol.isEpsilon, hterm]

/-- A symbol that has a tree has a non-empty FIRST set. -/
theorem IsTree.first_ne_nil (h : IsTree t.getTerminals prods tr) :
    computeFirstSets t prods (computeEpsilonDerivers prods) tr.symbol ≠ [] := by
  cases hy : tr.yield with
  | nil => exact List.ne_nil_of_mem (h.epsilon_mem_first hy)
  | cons y rest => exact List.ne_nil_of_mem (h.mem_first (v := y.2) (by rw [hy]))

end ParseNode

end Lalr1
