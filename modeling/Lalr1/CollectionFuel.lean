import Mathlib.Data.Finset.Powerset
import Lalr1.Coverage

/-!
# The canonical LR(1) construction finishes within its fuel

`isLALR1` gives every closure as many rounds as there are LR(1) items over the table's symbols
and `$`, and the collection as many steps as there are sets of them. That is enough. Every item
the construction meets lies in `lr1Universe`: its core is an item of `itemUniverse`, and its
lookahead is `$` or a symbol of the table, since FIRST sets hold terminals, ε and `$` only. A
round of a closure either adds a new item or stops (`closure_isSome`). The states of the
collection are different sets of such items, and the worklist takes each one once
(`collection_isSome`).

So `isLALR1` always decides the question (`isLALR1_construction_isSome`), and a grammar whose
table `generate_table` builds without a conflict is LALR(1) (`isLALR1_of_conflicts_eq_nil`).
-/

namespace Lalr1

namespace CanonicalLR1

/-- The LR(1) items with a core of `itemUniverse prods` and `$` or a symbol of `t` as lookahead. -/
def lr1Universe (prods : List Production) (t : SymbolTable) : List LR1Item :=
  (itemUniverse prods).flatMap fun c =>
    (endOfInputSymbol :: t.symbols).map (LR1Item.mk c.production c.dotPosition)

variable {prods : List Production} {t : SymbolTable} {eps : Symbol → Bool}
  {first : Symbol → List Symbol}

theorem length_lr1Universe :
    (lr1Universe prods t).length = (itemUniverse prods).length * (t.symbols.length + 1) := by
  simp only [lr1Universe, List.length_flatMap, Function.comp_def, List.length_map, List.length_cons,
    List.map_const', List.sum_replicate]
  rfl

theorem mem_lr1Universe {it : LR1Item} :
    it ∈ lr1Universe prods t ↔
      it.core ∈ itemUniverse prods ∧ it.lookahead ∈ endOfInputSymbol :: t.symbols := by
  rcases it with ⟨p, d, a⟩
  simp only [lr1Universe, List.mem_flatMap, List.mem_map, LR1Item.core, LR1Item.mk.injEq]
  constructor
  · rintro ⟨c, hc, b, hb, rfl, rfl, rfl⟩
    exact ⟨hc, hb⟩
  · rintro ⟨hc, ha⟩
    exact ⟨_, hc, a, ha, rfl, rfl, rfl⟩

/-- Candidates are items of the universe, when FIRST sets hold terminals, ε and `$` only. -/
theorem candidates_mem_lr1Universe (hfirst : SetsWithin t first) {it it' : LR1Item}
    (hit' : it' ∈ candidates prods eps first it) :
    it' ∈ lr1Universe prods t := by
  unfold candidates at hit'
  split at hit'
  · split at hit'
    · obtain ⟨q, hq, hmem⟩ := List.mem_flatMap.mp hit'
      obtain ⟨b, hb, rfl⟩ := List.mem_map.mp hmem
      obtain ⟨p, hp, -⟩ := mem_productionsFor.mp hq
      obtain ⟨hb, hbe⟩ := List.mem_filter.mp hb
      refine mem_lr1Universe.mpr ⟨mem_itemUniverse.mpr
        ⟨(List.getElem?_eq_some_iff.mp hp).1, Nat.zero_le _⟩, ?_⟩
      rcases mem_firstSetSeq hb with rfl | ⟨x, hx, hbx, -⟩
      · exact absurd hbe (by decide)
      rcases List.mem_append.mp ((hfirst x).2 hbx) with hbt | hbt
      · exact List.mem_cons_of_mem _ (List.mem_filter.mp hbt).1
      · simp only [List.mem_cons, List.mem_singleton, List.not_mem_nil, or_false] at hbt
        rcases hbt with rfl | rfl
        · exact absurd hbe (by decide)
        · exact List.mem_cons_self _ _
    · simp at hit'
  · simp at hit'

/-- The dot moves over the symbol after it inside the universe. -/
theorem advance_mem_lr1Universe {it : LR1Item} {x : Symbol} (hit : it ∈ lr1Universe prods t)
    (hx : it.core.nextSymbol prods = some x) :
    (⟨it.production, it.dotPosition + 1, it.lookahead⟩ : LR1Item) ∈ lr1Universe prods t := by
  obtain ⟨hc, ha⟩ := mem_lr1Universe.mp hit
  have hlt : it.dotPosition < (rhsOf prods it.production).length :=
    (List.getElem?_eq_some_iff.mp hx).1
  exact mem_lr1Universe.mpr ⟨mem_itemUniverse.mpr ⟨(mem_itemUniverse.mp hc).1, hlt⟩, ha⟩

/-! ## Closures -/

section Fuel

variable (hfirst : SetsWithin t first)
include hfirst

/-- A closure of a duplicate-free kernel inside the universe finishes, duplicate-free and inside
the universe, once its fuel and the kernel together exceed the universe: every round that does
not stop adds an item. -/
theorem closure_isSome : ∀ {n : Nat} {K : List LR1Item}, K.Nodup → K ⊆ lr1Universe prods t →
    (lr1Universe prods t).length + 1 ≤ n + K.length →
    ∃ res, closure prods eps first n K = some res ∧ res.Nodup ∧ res ⊆ lr1Universe prods t
  | 0, K, hnd, hK, hn => absurd (hnd.subperm hK).length_le (by omega)
  | n + 1, K, hnd, hK, hn => by
    dsimp only [closure]
    split
    · exact ⟨K, rfl, hnd, hK⟩
    · rename_i hnew
      have hsub : ((K.flatMap (candidates prods eps first)).filter (· ∉ K)).dedup ⊆
          lr1Universe prods t := fun it hit => by
        obtain ⟨it0, h0, hc⟩ := List.mem_flatMap.mp (List.mem_filter.mp (List.mem_dedup.mp hit)).1
        exact candidates_mem_lr1Universe hfirst hc
      have hpos : 0 < ((K.flatMap (candidates prods eps first)).filter (· ∉ K)).dedup.length :=
        List.length_pos.mpr fun h => hnew (List.isEmpty_iff.mpr h)
      refine closure_isSome (hnd.append (List.nodup_dedup _) fun it h1 h2 => ?_)
        (List.append_subset.mpr ⟨hK, hsub⟩) (by rw [List.length_append]; omega)
      simpa [h1] using (List.mem_filter.mp (List.mem_dedup.mp h2)).2

variable {F : Nat} (hF : (lr1Universe prods t).length + 1 ≤ F)
include hF

/-- `Goto` of a duplicate-free state inside the universe finishes, duplicate-free and inside the
universe. -/
theorem goto_isSome {I : List LR1Item} (hnd : I.Nodup) (hI : I ⊆ lr1Universe prods t)
    (x : Symbol) :
    ∃ J, goto prods eps first F I x = some J ∧ J.Nodup ∧ J ⊆ lr1Universe prods t := by
  have hkernel : ∀ it ∈ I.filter (·.core.nextSymbol prods == some x),
      (⟨it.production, it.dotPosition + 1, it.lookahead⟩ : LR1Item) ∈ lr1Universe prods t :=
    fun it hit => by
      obtain ⟨hit, hx⟩ := List.mem_filter.mp hit
      exact advance_mem_lr1Universe (hI hit) (by simpa using hx)
  refine closure_isSome hfirst ((hnd.filter _).map fun a b h => ?_)
    (fun it hit => ?_) (by omega)
  · rcases a with ⟨p, d, l⟩
    rcases b with ⟨p', d', l'⟩
    simp only [LR1Item.mk.injEq, Nat.add_right_cancel_iff] at h
    obtain ⟨rfl, rfl, rfl⟩ := h
    rfl
  · obtain ⟨it0, h0, rfl⟩ := List.mem_map.mp hit
    exact hkernel it0 h0

end Fuel

/-! ## The collection -/

theorem sameItems1_comm (a b : List LR1Item) : sameItems1 a b = sameItems1 b a := by
  simp [sameItems1, Bool.and_comm]

/-- Item sets that are different sets inside a universe `U` number at most `2 ^ |U|`. -/
theorem length_le_of_pairwise_sameItems1 {U : List LR1Item} {states : List (List LR1Item)}
    (hd : states.Pairwise (fun I J => sameItems1 I J = false)) (hs : ∀ I ∈ states, I ⊆ U) :
    states.length ≤ 2 ^ U.length := by
  let f := fun I : List LR1Item => U.toFinset.filter (· ∈ I)
  have hinj : (states.map f).Nodup := by
    refine List.Pairwise.map f (fun I J h => h) (hd.imp_of_mem fun {I J} hI hJ h e => ?_)
    have hsub : ∀ {A B : List LR1Item}, A ⊆ U → f A = f B → A ⊆ B := fun {A B} hA e x hx => by
      have : x ∈ f A := Finset.mem_filter.mpr ⟨List.mem_toFinset.mpr (hA hx), hx⟩
      exact (Finset.mem_filter.mp (e ▸ this)).2
    have hIJ := hsub (hs I hI) e
    have hJI := hsub (hs J hJ) e.symm
    have hsame : sameItems1 I J = true := by
      simp only [sameItems1, Bool.and_eq_true, List.all_eq_true, decide_eq_true_eq]
      exact ⟨fun x hx => hIJ hx, fun x hx => hJI hx⟩
    rw [hsame] at h
    cases h
  calc states.length = (states.map f).toFinset.card := by
        rw [List.toFinset_card_of_nodup hinj, List.length_map]
    _ ≤ U.toFinset.powerset.card := Finset.card_le_card fun A hA => by
        obtain ⟨I, -, rfl⟩ := List.mem_map.mp (List.mem_toFinset.mp hA)
        exact Finset.mem_powerset.mpr (Finset.filter_subset _ _)
    _ ≤ 2 ^ U.length := by
        rw [Finset.card_powerset]
        exact Nat.pow_le_pow_right (by decide) (List.toFinset_card_le U)

/-- A `mapM` in `Option` finishes when the function does on every element. -/
theorem mapM_isSome {α β : Type} {f : α → Option β} {P : β → Prop} :
    ∀ (xs : List α), (∀ x ∈ xs, ∃ y, f x = some y ∧ P y) →
      ∃ ys, xs.mapM f = some ys ∧ ∀ y ∈ ys, P y
  | [], _ => ⟨[], rfl, by simp⟩
  | x :: xs, h => by
    obtain ⟨y, hy, hPy⟩ := h x (List.mem_cons_self x xs)
    obtain ⟨ys, hys, hPys⟩ := mapM_isSome xs fun x' hx' => h x' (List.mem_cons_of_mem x hx')
    refine ⟨y :: ys, by rw [List.mapM_cons, hy, hys]; rfl, ?_⟩
    intro z hz
    rcases List.mem_cons.mp hz with rfl | hz
    · exact hPy
    · exact hPys z hz

section Fuel

variable (hfirst : SetsWithin t first) {F : Nat} (hF : (lr1Universe prods t).length + 1 ≤ F)
include hfirst hF

/-- The collection finishes once its fuel covers the item sets it can still add and the states
it has still to process: each step processes one state and adds only sets it does not hold. -/
theorem collection_isSome : ∀ {n : Nat} {states work : List (List LR1Item)},
    states.Pairwise (fun I J => sameItems1 I J = false) →
    (∀ I ∈ states, I.Nodup ∧ I ⊆ lr1Universe prods t) →
    (∀ I ∈ work, I.Nodup ∧ I ⊆ lr1Universe prods t) →
    2 ^ (lr1Universe prods t).length + work.length ≤ n + states.length →
    ∃ res, collection prods eps first F n states work = some res
  | n, states, [], _, _, _, _ => ⟨states, by simp [collection]⟩
  | 0, states, I :: work, hd, hs, _, hn => by
    have := length_le_of_pairwise_sameItems1 hd fun I hI => (hs I hI).2
    simp only [List.length_cons] at hn
    omega
  | n + 1, states, I :: work, hd, hs, hw, hn => by
    obtain ⟨hIn, hIU⟩ := hw I (List.mem_cons_self I work)
    obtain ⟨targets, htargets, ht⟩ := mapM_isSome (f := goto prods eps first F I)
      (I.filterMap (·.core.nextSymbol prods)).dedup fun x _ => goto_isSome hfirst hF hIn hIU x
    simp only [collection, htargets]
    have hfold := foldl_invariant (fun acc : List (List LR1Item) × List (List LR1Item) =>
        acc.1 = states ++ acc.2 ∧ acc.1.Pairwise (fun I J => sameItems1 I J = false) ∧
          ∀ J ∈ acc.2, J.Nodup ∧ J ⊆ lr1Universe prods t)
      (fun (acc : List (List LR1Item) × List (List LR1Item)) J =>
        if acc.1.any (sameItems1 J) then acc else (acc.1 ++ [J], acc.2 ++ [J])) targets (states, [])
      ⟨by simp, hd, by simp⟩ fun acc J hJ ⟨heq, hpw, hgood⟩ => by
        dsimp only
        split
        · exact ⟨heq, hpw, hgood⟩
        · rename_i hnew
          refine ⟨by rw [heq, List.append_assoc], List.pairwise_append.mpr ⟨hpw, by simp, ?_⟩, ?_⟩
          · intro I hI J' hJ'
            obtain rfl := List.mem_singleton.mp hJ'
            simpa [sameItems1_comm] using List.any_eq_false.mp (Bool.eq_false_iff.mpr hnew) I hI
          · intro J' hJ'
            rcases List.mem_append.mp hJ' with hJ' | hJ'
            · exact hgood J' hJ'
            · exact (List.mem_singleton.mp hJ') ▸ ht J hJ
    obtain ⟨heq, hpw, hgood⟩ := hfold
    refine collection_isSome hpw (fun J hJ => ?_) (fun J hJ => ?_) ?_
    · rw [heq] at hJ
      rcases List.mem_append.mp hJ with hJ | hJ
      · exact hs J hJ
      · exact hgood J hJ
    · rcases List.mem_append.mp hJ with hJ | hJ
      · exact hw J (List.mem_cons_of_mem I hJ)
      · exact hgood J hJ
    · rw [heq, List.length_append, List.length_append]
      simp only [List.length_cons] at hn
      omega

end Fuel

end CanonicalLR1

open CanonicalLR1

/-- The construction `isLALR1` runs finishes within its fuel on every grammar with a production:
the closure of the start item and the canonical collection from it. -/
theorem isLALR1_construction_isSome (g : Grammar) (hne : g.productions ≠ []) :
    ∃ I0 states,
      CanonicalLR1.closure g.productions g.constEpsilon g.constFirstSet
        ((itemUniverse g.productions).length * (g.symbolTable.symbols.length + 1) + 1)
        [⟨0, 0, endOfInputSymbol⟩] = some I0 ∧
      CanonicalLR1.collection g.productions g.constEpsilon g.constFirstSet
        ((itemUniverse g.productions).length * (g.symbolTable.symbols.length + 1) + 1)
        (2 ^ ((itemUniverse g.productions).length * (g.symbolTable.symbols.length + 1) + 1))
        [I0] [I0] = some states := by
  generalize hFdef : (itemUniverse g.productions).length * (g.symbolTable.symbols.length + 1) + 1 = F
  have hfirst : SetsWithin g.symbolTable g.constFirstSet := computeFirstSets_within
  have hF : (lr1Universe g.productions g.symbolTable).length + 1 ≤ F := by
    rw [length_lr1Universe, ← hFdef]
  have hstart : (⟨0, 0, endOfInputSymbol⟩ : LR1Item) ∈ lr1Universe g.productions g.symbolTable :=
    mem_lr1Universe.mpr ⟨mem_itemUniverse.mpr ⟨List.length_pos.mpr hne, Nat.zero_le _⟩,
      List.mem_cons_self _ _⟩
  obtain ⟨I0, hI0, hnd, hsub⟩ : ∃ I0, CanonicalLR1.closure g.productions g.constEpsilon
      g.constFirstSet F [⟨0, 0, endOfInputSymbol⟩] = some I0 ∧ I0.Nodup ∧
        I0 ⊆ lr1Universe g.productions g.symbolTable :=
    closure_isSome hfirst (List.nodup_singleton _) (by simpa using hstart)
      (by simp only [List.length_singleton]; omega)
  obtain ⟨states, h⟩ : ∃ states, CanonicalLR1.collection g.productions g.constEpsilon
      g.constFirstSet F (2 ^ F) [I0] [I0] = some states :=
    collection_isSome hfirst hF (List.pairwise_singleton _ _) (by simpa using ⟨hnd, hsub⟩)
      (by simpa using ⟨hnd, hsub⟩)
      (by
        simp only [List.length_singleton]
        exact Nat.add_le_add_right (Nat.pow_le_pow_right (by decide) (by omega)) 1)
  exact ⟨I0, states, hI0, h⟩

/-- On a grammar built through the API with plain names, a start symbol and productions of
nonterminals, augmented: when `generate_table` logs no conflict, `isLALR1` holds. -/
theorem isLALR1_of_conflicts_eq_nil {g : Grammar} {S : Symbol} (hb : g.Built)
    (hS : g.startSymbol = some S) (hn : g.symbolTable.PlainNames)
    (hlhs : ∀ p ∈ g.productions, p.lhs.isNonterminal = true) {addr : Nat → Nat}
    {gen : LALR1Generator} {T : ParseTable} (hgen : LALR1Generator.create g.augment = some gen)
    (hT : gen.generateTable addr = .ok T) (hc : T.conflicts = []) :
    isLALR1 g.augment = true := by
  have hne : g.augment.productions ≠ [] := by
    simp [Grammar.augment_productions (hb.wf.isAugmented_eq_false hn) hS]
  obtain ⟨I0, states, hI0, h⟩ := isLALR1_construction_isSome g.augment hne
  have hmoves := lalr1_of_conflicts_eq_nil hb hS hn hlhs hgen hT hc hI0 h
  unfold isLALR1
  simp only [hI0, h, List.all_eq_true, decide_eq_true_eq]
  exact fun M hM a _ => hmoves M hM a

theorem isLALR1_listGrammar : ∃ gen T, LALR1Generator.create listGrammar.augment = some gen ∧
    gen.generateTable id = .ok T ∧ T.conflicts = [] ∧ isLALR1 listGrammar.augment = true := by
  obtain ⟨gen, T, hgen, hT, hc⟩ := listGrammar_conflict_free
  exact ⟨gen, T, hgen, hT, hc,
    isLALR1_of_conflicts_eq_nil listGrammar_built rfl (by decide) (by decide) hgen hT hc⟩

end Lalr1
