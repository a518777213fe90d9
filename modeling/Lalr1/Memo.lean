import Mathlib.Logic.Relation
import Lalr1.Augment

/-!
# The memo tables of the set analyses

`clear_cache` runs in `add_production` and `augment`. `set_start_symbol` and the symbol table's
interning leave the memo tables alone, although FOLLOW is seeded from the start symbol and FIRST
from the table's terminals: a query after such a change can return the value of the grammar as
it was when the memo table was filled.

`MemoFresh` says that every filled memo table holds what a fresh grammar computes. It holds of
`Grammar()`, every query and every `add_production`/`augment` keeps it, and as long as it holds
the queries agree with a fresh grammar.
-/

namespace Lalr1

namespace Grammar

/-- A freshly constructed grammar with the same table, productions and start symbol. -/
def fresh (g : Grammar) : Grammar :=
  { Grammar.new with
    symbolTable := g.symbolTable
    productions := g.productions
    startSymbol := g.startSymbol }

/-- `E → T`, `T → x` with start `E`, `follow_set(E)` queried, then the start symbol set to `T`. -/
def restartedGrammar : Grammar :=
  let (e, g) := Grammar.new.getNonterminal "E"
  let (t, g) := g.getNonterminal "T"
  let (x, g) := g.getTerminal "x" .identifier
  let g := ((g.addProduction e [t]).addProduction t [x]).setStartSymbol e
  (g.followSet e).2.setStartSymbol t

/-- After the start symbol changes, `follow_set(E)` still returns `{$}`, which a fresh grammar
with start symbol `T` no longer puts in FOLLOW(E). -/
theorem followSet_stale_after_setStartSymbol :
    (restartedGrammar.followSet (.nonterminal "E")).1 = [endOfInputSymbol] ∧
      (restartedGrammar.fresh.followSet (.nonterminal "E")).1 = [] := by
  decide

/-- `E → x` with start `E`, `first_set(E)` queried, then the terminal `y` interned. -/
def lateTerminalGrammar : Grammar :=
  let (e, g) := Grammar.new.getNonterminal "E"
  let (x, g) := g.getTerminal "x" .identifier
  let g := (g.addProduction e [x]).setStartSymbol e
  ((g.firstSet e).2.getTerminal "y" .number).2

/-- A terminal interned after FIRST was computed has an empty FIRST set until the next
`add_production`; a fresh grammar gives it `{y}`. -/
theorem firstSet_stale_after_interning :
    (lateTerminalGrammar.firstSet (.terminal "y" .number)).1 = [] ∧
      (lateTerminalGrammar.fresh.firstSet (.terminal "y" .number)).1 =
        [.terminal "y" .number] := by
  decide

/-! ## When the memo tables are fresh -/

/-- Every filled memo table holds the value a fresh grammar computes. -/
structure MemoFresh (g : Grammar) : Prop where
  epsilon : g.epsilonComputed = true → g.epsilonDerivers = g.constEpsilon
  first : g.firstSetsComputed = true → g.epsilonComputed = true ∧ g.firstSets = g.constFirstSet
  follow : g.followSetsComputed = true →
    g.firstSetsComputed = true ∧ g.followSets = g.constFollowSet

/-! Filling a memo table changes no grammar data. -/

section Fill

variable (g : Grammar)

@[simp] theorem withEpsilon_symbolTable : g.withEpsilon.symbolTable = g.symbolTable := by
  unfold withEpsilon; split <;> rfl
@[simp] theorem withEpsilon_productions : g.withEpsilon.productions = g.productions := by
  unfold withEpsilon; split <;> rfl
@[simp] theorem withEpsilon_startSymbol : g.withEpsilon.startSymbol = g.startSymbol := by
  unfold withEpsilon; split <;> rfl
@[simp] theorem withEpsilon_firstSets : g.withEpsilon.firstSets = g.firstSets := by
  unfold withEpsilon; split <;> rfl
@[simp] theorem withEpsilon_followSets : g.withEpsilon.followSets = g.followSets := by
  unfold withEpsilon; split <;> rfl
@[simp] theorem withEpsilon_firstSetsComputed :
    g.withEpsilon.firstSetsComputed = g.firstSetsComputed := by
  unfold withEpsilon; split <;> rfl
@[simp] theorem withEpsilon_followSetsComputed :
    g.withEpsilon.followSetsComputed = g.followSetsComputed := by
  unfold withEpsilon; split <;> rfl
@[simp] theorem withEpsilon_epsilonComputed : g.withEpsilon.epsilonComputed = true := by
  unfold withEpsilon; split <;> simp_all

@[simp] theorem withFirst_symbolTable : g.withFirst.symbolTable = g.symbolTable := by
  unfold withFirst; split <;> simp
@[simp] theorem withFirst_productions : g.withFirst.productions = g.productions := by
  unfold withFirst; split <;> simp
@[simp] theorem withFirst_startSymbol : g.withFirst.startSymbol = g.startSymbol := by
  unfold withFirst; split <;> simp
@[simp] theorem withFirst_followSets : g.withFirst.followSets = g.followSets := by
  unfold withFirst; split <;> simp
@[simp] theorem withFirst_followSetsComputed :
    g.withFirst.followSetsComputed = g.followSetsComputed := by
  unfold withFirst; split <;> simp
@[simp] theorem withFirst_firstSetsComputed : g.withFirst.firstSetsComputed = true := by
  unfold withFirst; split <;> simp_all

@[simp] theorem withFollow_symbolTable : g.withFollow.symbolTable = g.symbolTable := by
  unfold withFollow; split <;> simp
@[simp] theorem withFollow_productions : g.withFollow.productions = g.productions := by
  unfold withFollow; split <;> simp
@[simp] theorem withFollow_startSymbol : g.withFollow.startSymbol = g.startSymbol := by
  unfold withFollow; split <;> simp

@[simp] theorem withEpsilon_constFirstSet : g.withEpsilon.constFirstSet = g.constFirstSet := by
  simp [constFirstSet, constEpsilon]
@[simp] theorem withEpsilon_constFollowSet :
    g.withEpsilon.constFollowSet = g.constFollowSet := by
  simp [constFollowSet, constFirstSet, constEpsilon]
@[simp] theorem withFirst_constEpsilon : g.withFirst.constEpsilon = g.constEpsilon := by
  simp [constEpsilon]
@[simp] theorem withFirst_constFirstSet : g.withFirst.constFirstSet = g.constFirstSet := by
  simp [constFirstSet, constEpsilon]
@[simp] theorem withFirst_constFollowSet : g.withFirst.constFollowSet = g.constFollowSet := by
  simp [constFollowSet, constFirstSet, constEpsilon]
@[simp] theorem withFollow_constFollowSet :
    g.withFollow.constFollowSet = g.constFollowSet := by
  simp [constFollowSet, constFirstSet, constEpsilon]
@[simp] theorem withEpsilon_constEpsilon : g.withEpsilon.constEpsilon = g.constEpsilon := by
  simp [constEpsilon]

@[simp] theorem fresh_constEpsilon : g.fresh.constEpsilon = g.constEpsilon := rfl
@[simp] theorem fresh_constFirstSet : g.fresh.constFirstSet = g.constFirstSet := rfl
@[simp] theorem fresh_constFollowSet : g.fresh.constFollowSet = g.constFollowSet := rfl

end Fill

namespace MemoFresh

variable {g : Grammar}

theorem new : Grammar.new.MemoFresh := ⟨by simp [Grammar.new], by simp [Grammar.new],
  by simp [Grammar.new]⟩

theorem clearCache (g : Grammar) : g.clearCache.MemoFresh :=
  ⟨by simp [Grammar.clearCache], by simp [Grammar.clearCache], by simp [Grammar.clearCache]⟩

theorem addProduction (g : Grammar) (lhs : Symbol) (rhs : List Symbol) :
    (g.addProduction lhs rhs).MemoFresh :=
  clearCache _

theorem augment (h : g.MemoFresh) : g.augment.MemoFresh := by
  unfold Grammar.augment
  split
  · exact h
  · split
    · exact h
    · exact clearCache _

/-- FIRST and nullability do not read the start symbol. -/
theorem setStartSymbol (h : g.MemoFresh) (hf : g.followSetsComputed = false) (s : Symbol) :
    (g.setStartSymbol s).MemoFresh :=
  ⟨h.epsilon, h.first, by simp [Grammar.setStartSymbol, hf]⟩

/-- With no FIRST or FOLLOW sets filled, interning keeps the memo tables fresh: nullability
reads only the productions. -/
theorem intern (h : g.MemoFresh) (hf : g.firstSetsComputed = false)
    (hg : g.followSetsComputed = false) (t : SymbolTable) :
    { g with symbolTable := t }.MemoFresh :=
  ⟨h.epsilon, by simp [hf], by simp [hg]⟩

theorem withEpsilon_epsilonDerivers (h : g.MemoFresh) :
    g.withEpsilon.epsilonDerivers = g.constEpsilon := by
  unfold Grammar.withEpsilon
  split
  · exact h.epsilon ‹_›
  · rfl

theorem withEpsilon (h : g.MemoFresh) : g.withEpsilon.MemoFresh where
  epsilon _ := by simp [withEpsilon_epsilonDerivers h]
  first hf := by
    simp only [withEpsilon_firstSetsComputed] at hf
    simp [(h.first hf).2]
  follow hf := by
    simp only [withEpsilon_followSetsComputed] at hf
    simp [h.follow hf]

theorem withFirst_firstSets (h : g.MemoFresh) : g.withFirst.firstSets = g.constFirstSet := by
  unfold Grammar.withFirst
  split
  · exact (h.first ‹_›).2
  · simp [constFirstSet, h.withEpsilon_epsilonDerivers]

theorem withFirst_epsilonDerivers (h : g.MemoFresh) :
    g.withFirst.epsilonDerivers = g.constEpsilon := by
  unfold Grammar.withFirst
  split
  · exact h.epsilon (h.first ‹_›).1
  · exact h.withEpsilon_epsilonDerivers

theorem withFirst (h : g.MemoFresh) : g.withFirst.MemoFresh where
  epsilon _ := by simp [withFirst_epsilonDerivers h]
  first _ := by
    refine ⟨?_, by simp [withFirst_firstSets h]⟩
    unfold Grammar.withFirst; split
    · exact (h.first ‹_›).1
    · simp
  follow hf := by
    simp only [withFirst_followSetsComputed] at hf
    simp [h.follow hf]

theorem withFollow_followSets (h : g.MemoFresh) : g.withFollow.followSets = g.constFollowSet := by
  unfold Grammar.withFollow
  split
  · exact (h.follow ‹_›).2
  · simp [constFollowSet, h.withFirst_firstSets, h.withFirst_epsilonDerivers]

theorem withFollow (h : g.MemoFresh) : g.withFollow.MemoFresh := by
  have hf := h.withFollow_followSets
  unfold Grammar.withFollow at hf ⊢
  split
  · exact h
  · rename_i hc
    have h1 := h.withFirst
    simp only [hc, if_false] at hf
    exact ⟨fun _ => h1.epsilon (by simp [(h1.first (by simp)).1]),
      fun _ => h1.first (by simp), fun _ => ⟨by simp, by simpa [constFollowSet, constFirstSet,
        constEpsilon] using hf⟩⟩

theorem fresh (g : Grammar) : g.fresh.MemoFresh :=
  ⟨by simp [Grammar.fresh, Grammar.new], by simp [Grammar.fresh, Grammar.new],
    by simp [Grammar.fresh, Grammar.new]⟩

/-! While the memo tables are fresh, the queries agree with a fresh grammar. -/

theorem derivesEpsilon_eq (h : g.MemoFresh) (x : Symbol) :
    (g.derivesEpsilon x).1 = (g.fresh.derivesEpsilon x).1 := by
  simp [derivesEpsilon, h.withEpsilon_epsilonDerivers, (fresh g).withEpsilon_epsilonDerivers]

theorem firstSet_eq (h : g.MemoFresh) (x : Symbol) :
    (g.firstSet x).1 = (g.fresh.firstSet x).1 := by
  simp [firstSet, h.withFirst_firstSets, (fresh g).withFirst_firstSets]

theorem followSet_eq (h : g.MemoFresh) (x : Symbol) :
    (g.followSet x).1 = (g.fresh.followSet x).1 := by
  simp [followSet, h.withFollow_followSets, (fresh g).withFollow_followSets]

end MemoFresh

/-- The API calls that keep the memo tables fresh: productions, augmentation and the queries
at any time, a new start symbol only while no FOLLOW set is filled, and interning only while no
FIRST or FOLLOW set is filled. -/
inductive FreshStep : Grammar → Grammar → Prop
  | addProduction (g : Grammar) (lhs : Symbol) (rhs : List Symbol) :
      FreshStep g (g.addProduction lhs rhs)
  | augment (g : Grammar) : FreshStep g g.augment
  | derivesEpsilon (g : Grammar) (x : Symbol) : FreshStep g (g.derivesEpsilon x).2
  | firstSet (g : Grammar) (x : Symbol) : FreshStep g (g.firstSet x).2
  | followSet (g : Grammar) (x : Symbol) : FreshStep g (g.followSet x).2
  | setStartSymbol (g : Grammar) (s : Symbol) :
      g.followSetsComputed = false → FreshStep g (g.setStartSymbol s)
  | intern (g : Grammar) (t : SymbolTable) : g.firstSetsComputed = false →
      g.followSetsComputed = false → FreshStep g { g with symbolTable := t }

theorem FreshStep.memoFresh {g g' : Grammar} (hs : FreshStep g g') (h : g.MemoFresh) :
    g'.MemoFresh := by
  cases hs with
  | addProduction => exact MemoFresh.addProduction _ _ _
  | augment => exact h.augment
  | derivesEpsilon => exact h.withEpsilon
  | firstSet => exact h.withFirst
  | followSet => exact h.withFollow
  | setStartSymbol s hf => exact h.setStartSymbol hf s
  | intern t hf hg => exact h.intern hf hg t

/-- Along any run of such calls from `Grammar()`, `follow_set` (and likewise `first_set` and
`derives_epsilon`, by `MemoFresh.firstSet_eq` and `MemoFresh.derivesEpsilon_eq`) returns what a
fresh grammar returns. -/
theorem followSet_eq_fresh_of_run {g : Grammar} (h : Relation.ReflTransGen FreshStep Grammar.new g)
    (x : Symbol) : (g.followSet x).1 = (g.fresh.followSet x).1 := by
  have hm : g.MemoFresh := by
    induction h with
    | refl => exact MemoFresh.new
    | tail _ hs ih => exact hs.memoFresh ih
  exact hm.followSet_eq x

/-- `E → x` is added, `FOLLOW(E)` is queried, and `E → ε` is added. -/
theorem followSet_eq_fresh_of_run_requery :
    Relation.ReflTransGen FreshStep Grammar.new
        ((((Grammar.new.addProduction (.nonterminal "E") [.terminal "x" .identifier]).followSet
          (.nonterminal "E")).2).addProduction (.nonterminal "E") []) ∧
      (((((Grammar.new.addProduction (.nonterminal "E") [.terminal "x" .identifier]).followSet
          (.nonterminal "E")).2).addProduction (.nonterminal "E") []).followSet (.nonterminal "E")).1 =
        (((((Grammar.new.addProduction (.nonterminal "E") [.terminal "x" .identifier]).followSet
          (.nonterminal "E")).2).addProduction (.nonterminal "E") []).fresh.followSet (.nonterminal "E")).1 :=
  have hrun := Relation.ReflTransGen.tail (.tail (.single (.addProduction _ _ _)) (.followSet _ _))
    (.addProduction _ _ _)
  ⟨hrun, followSet_eq_fresh_of_run hrun _⟩

end Grammar

end Lalr1
