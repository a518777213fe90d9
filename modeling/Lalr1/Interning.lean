import Mathlib.Data.List.Sort
import Mathlib.Data.List.Nodup
import Lalr1.Symbol

/-!
# Interned symbols

`SymbolTable` (`symbol.cpp`) hands out `SymbolPtr`s, and the generator compares symbols by
pointer; `Lalr1.SymbolTable` compares them by value. Here the table is modelled with its objects:
an object is an address with the symbol stored there, `symbols_` lists the objects of the set in
address order (the order of a `std::set<SymbolPtr>`), and `make_shared` returns any address that
no object has (`Calls`).

`get_terminal` and `get_nonterminal` are one linear search with insertion (`intern`), the first
matching name, kind and token type, the second name and kind only. Every call keeps the table
interned (`Interned`: one object per symbol, and every nonterminal made by `get_nonterminal`),
which makes the second search exact too (`nonterminal_matches`). So along any sequence of calls
from the constructor, two calls return the same pointer exactly when they ask for the same symbol
(`symbols_interned`). The value model is this one seen through the symbols of the objects
(`getTerminal_refines`, `getNonterminal_refines`): it returns the symbol the pointer points to and
holds the same symbols, in the same order when addresses grow.
-/

namespace Lalr1

namespace Ptr

/-- `class SymbolTable` with its objects: `symbols_` as the addresses of the set with the symbol
at each, in address order, and the addresses `epsilon_` and `end_of_input_`. -/
structure SymbolTable where
  symbols : List (Nat × Symbol)
  epsilon : Nat
  endOfInput : Nat
  deriving DecidableEq, Repr

namespace SymbolTable

/-- `std::set<SymbolPtr>::insert` of a new object: at its place in address order. -/
def insert (o : Nat × Symbol) (objs : List (Nat × Symbol)) : List (Nat × Symbol) :=
  objs.orderedInsert (fun a b => a.1 ≤ b.1) o

/-- `SymbolTable::SymbolTable`: `epsilon_` and `end_of_input_` made at the addresses `e` and
`d`. -/
def new (e d : Nat) : SymbolTable := ⟨insert (d, endOfInputSymbol) [(e, epsilonSymbol)], e, d⟩

/-- The search and insertion of `get_terminal` and `get_nonterminal`: the address of the first
object, in address order, whose symbol satisfies `pred`, or else a new object for `sym` at the address
`fresh` that `make_shared` returns. -/
def intern (t : SymbolTable) (pred : Symbol → Bool) (sym : Symbol) (fresh : Nat) :
    Nat × SymbolTable :=
  match t.symbols.find? (fun o => pred o.2) with
  | some o => (o.1, t)
  | none => (fresh, { t with symbols := insert (fresh, sym) t.symbols })

/-- `SymbolTable::get_terminal`. -/
def getTerminal (t : SymbolTable) (name : String) (tt : TokenType) (fresh : Nat) :
    Nat × SymbolTable :=
  t.intern (fun s => s.name == name && s.isTerminal && s.tokenType == tt) (.terminal name tt) fresh

/-- `SymbolTable::get_nonterminal`: the search does not read the token type. -/
def getNonterminal (t : SymbolTable) (name : String) (fresh : Nat) : Nat × SymbolTable :=
  t.intern (fun s => s.name == name && s.isNonterminal) (.nonterminal name) fresh

/-- `SymbolTable::get_epsilon`. -/
def getEpsilon (t : SymbolTable) : Nat := t.epsilon

/-- `SymbolTable::get_end_of_input`. -/
def getEndOfInput (t : SymbolTable) : Nat := t.endOfInput

/-- The calls a client makes on the table. -/
inductive Request
  | getTerminal (name : String) (tt : TokenType)
  | getNonterminal (name : String)
  | getEpsilon
  | getEndOfInput
  deriving DecidableEq, Repr

/-- The symbol a call asks for. -/
def Request.key : Request → Symbol
  | .getTerminal name tt => .terminal name tt
  | .getNonterminal name => .nonterminal name
  | .getEpsilon => epsilonSymbol
  | .getEndOfInput => endOfInputSymbol

/-- One call; `fresh` is the address `make_shared` returns if the call makes an object. -/
def call (t : SymbolTable) (fresh : Nat) : Request → Nat × SymbolTable
  | .getTerminal name tt => t.getTerminal name tt fresh
  | .getNonterminal name => t.getNonterminal name fresh
  | .getEpsilon => (t.getEpsilon, t)
  | .getEndOfInput => (t.getEndOfInput, t)

/-- The calls `rs` one after another, returning the pointers `ps`. An object is made at an
address that no object of the table has: the table keeps every object it made alive, and
`make_shared` never returns the address of a live object. -/
inductive Calls : SymbolTable → List Request → List Nat → SymbolTable → Prop
  | nil (t : SymbolTable) : Calls t [] [] t
  | cons {t t' t'' : SymbolTable} {r : Request} {rs : List Request} {p : Nat} {ps : List Nat}
      (fresh : Nat) : fresh ∉ t.symbols.map Prod.fst → t.call fresh r = (p, t') →
      Calls t' rs ps t'' → Calls t (r :: rs) (p :: ps) t''

/-! ## The table interns -/

theorem mem_insert {o o' : Nat × Symbol} {objs : List (Nat × Symbol)} :
    o' ∈ insert o objs ↔ o' = o ∨ o' ∈ objs := by
  rw [insert, (List.perm_orderedInsert _ o objs).mem_iff, List.mem_cons]

theorem nodup_map_insert {f : Nat × Symbol → α} {o : Nat × Symbol} {objs : List (Nat × Symbol)}
    (h : (objs.map f).Nodup) (ho : f o ∉ objs.map f) : ((insert o objs).map f).Nodup :=
  ((List.perm_orderedInsert _ o objs).map f).nodup_iff.mpr (List.nodup_cons.mpr ⟨ho, h⟩)

/-- The table interns: its objects are at distinct addresses and hold distinct symbols,
`epsilon_` and `end_of_input_` point to ε and `$`, and every nonterminal is one that
`get_nonterminal` made (token type `EOF_TOKEN`). -/
structure Interned (t : SymbolTable) : Prop where
  addresses : (t.symbols.map Prod.fst).Nodup
  symbols : (t.symbols.map Prod.snd).Nodup
  epsilon : (t.epsilon, epsilonSymbol) ∈ t.symbols
  endOfInput : (t.endOfInput, endOfInputSymbol) ∈ t.symbols
  nonterminal : ∀ o ∈ t.symbols, o.2.isNonterminal = true → o.2 = .nonterminal o.2.name

theorem interned_new {e d : Nat} (h : e ≠ d) : Interned (new e d) := by
  refine ⟨nodup_map_insert (by simp) (by simpa using Ne.symm h),
    nodup_map_insert (by simp) (by simp [epsilonSymbol, endOfInputSymbol]),
    mem_insert.mpr (.inr (List.mem_singleton_self _)), mem_insert.mpr (.inl rfl), ?_⟩
  intro o ho hn
  rcases mem_insert.mp ho with rfl | ho
  · simp [endOfInputSymbol, Symbol.isNonterminal] at hn
  · rw [List.mem_singleton.mp ho] at hn
    simp [epsilonSymbol, Symbol.isNonterminal] at hn

/-- In an interned table, two objects are at one address exactly when they hold one symbol. -/
theorem Interned.eq_iff {t : SymbolTable} (h : Interned t) {a b : Nat} {x y : Symbol}
    (ha : (a, x) ∈ t.symbols) (hb : (b, y) ∈ t.symbols) : a = b ↔ x = y := by
  constructor
  · rintro rfl
    exact congrArg Prod.snd (List.inj_on_of_nodup_map h.addresses ha hb rfl)
  · rintro rfl
    exact congrArg Prod.fst (List.inj_on_of_nodup_map h.symbols ha hb rfl)

section Intern

variable {t : SymbolTable} {pred : Symbol → Bool} {sym : Symbol} {fresh : Nat}

/-- Step lemma for the search and insertion: when, on the objects of an interned table, `pred`
picks out exactly `sym`, the call returns the address of an object holding `sym`, keeps every
object, and keeps the table interned. -/
theorem Interned.intern (h : Interned t) (hm : ∀ o ∈ t.symbols, pred o.2 = true ↔ o.2 = sym)
    (hsym : sym.isNonterminal = true → sym = .nonterminal sym.name)
    (hfresh : fresh ∉ t.symbols.map Prod.fst) :
    Interned (t.intern pred sym fresh).2 ∧
      ((t.intern pred sym fresh).1, sym) ∈ (t.intern pred sym fresh).2.symbols ∧
      t.symbols ⊆ (t.intern pred sym fresh).2.symbols := by
  unfold SymbolTable.intern
  split
  · rename_i o hfind
    have ho := List.mem_of_find?_eq_some hfind
    have hsym' := (hm o ho).mp (by simpa using List.find?_some hfind)
    exact ⟨h, by rw [← hsym']; exact ho, List.Subset.refl _⟩
  · rename_i hfind
    have hnot : sym ∉ t.symbols.map Prod.snd := fun hs => by
      obtain ⟨o, ho, rfl⟩ := List.mem_map.mp hs
      exact absurd ((hm o ho).mpr rfl) (by simpa using List.find?_eq_none.mp hfind o ho)
    refine ⟨⟨nodup_map_insert h.addresses hfresh, nodup_map_insert h.symbols hnot,
      mem_insert.mpr (.inr h.epsilon), mem_insert.mpr (.inr h.endOfInput), fun o ho hn => ?_⟩,
      mem_insert.mpr (.inl rfl), fun o ho => mem_insert.mpr (.inr ho)⟩
    rcases mem_insert.mp ho with rfl | ho
    · exact hsym hn
    · exact h.nonterminal o ho hn

end Intern

theorem terminal_matches (s : Symbol) (name : String) (tt : TokenType) :
    (s.name == name && s.isTerminal && s.tokenType == tt) = true ↔ s = .terminal name tt := by
  obtain ⟨n, k, tt'⟩ := s
  cases k <;> simp [Symbol.isTerminal, Symbol.terminal, and_comm]

/-- The search of `get_nonterminal` reads no token type; it is exact on an interned table, whose
nonterminals all have token type `EOF_TOKEN`. -/
theorem nonterminal_matches {t : SymbolTable} (h : Interned t) {o : Nat × Symbol} (ho : o ∈ t.symbols)
    (name : String) : (o.2.name == name && o.2.isNonterminal) = true ↔ o.2 = .nonterminal name := by
  constructor
  · intro hm
    simp only [Bool.and_eq_true, beq_iff_eq] at hm
    rw [h.nonterminal o ho hm.2, hm.1]
  · intro he
    simp [he, Symbol.nonterminal, Symbol.isNonterminal]

/-- Step lemma: every call keeps every object and the table interned, and returns the address of
an object holding the symbol it asks for. -/
theorem Interned.call {t : SymbolTable} (h : Interned t) {fresh : Nat}
    (hfresh : fresh ∉ t.symbols.map Prod.fst) (r : Request) :
    Interned (t.call fresh r).2 ∧ ((t.call fresh r).1, r.key) ∈ (t.call fresh r).2.symbols ∧
      t.symbols ⊆ (t.call fresh r).2.symbols := by
  cases r with
  | getTerminal name tt =>
    exact h.intern (fun o _ => terminal_matches o.2 name tt)
      (by simp [Symbol.terminal, Symbol.isNonterminal]) hfresh
  | getNonterminal name => exact h.intern (fun o ho => nonterminal_matches h ho name) (fun _ => rfl) hfresh
  | getEpsilon => exact ⟨h, h.epsilon, List.Subset.refl _⟩
  | getEndOfInput => exact ⟨h, h.endOfInput, List.Subset.refl _⟩

/-- Run lemma: along any sequence of calls from an interned table the table stays interned, keeps
its objects, and every pointer returned points to an object holding the symbol asked for. -/
theorem Calls.interned {t t' : SymbolTable} {rs : List Request} {ps : List Nat}
    (hc : Calls t rs ps t') (h : Interned t) :
    Interned t' ∧ ps.length = rs.length ∧ t.symbols ⊆ t'.symbols ∧
      ∀ x ∈ rs.zip ps, (x.2, x.1.key) ∈ t'.symbols := by
  induction hc with
  | nil => exact ⟨h, rfl, List.Subset.refl _, by simp⟩
  | @cons t t₁ t₂ r rs p ps fresh hfresh hcall _ ih =>
    obtain ⟨h₁, hmem, hsub⟩ := h.call hfresh r
    rw [hcall] at h₁ hmem hsub
    obtain ⟨h₂, hlen, hsub₂, hzip⟩ := ih h₁
    refine ⟨h₂, by simp [hlen], hsub.trans hsub₂, ?_⟩
    simp only [List.zip_cons_cons, List.mem_cons, forall_eq_or_imp]
    exact ⟨hsub₂ hmem, hzip⟩

/-- From a new table, along any sequence of `get_terminal`, `get_nonterminal`, `get_epsilon` and
`get_end_of_input` calls: the table holds at most one object per symbol (name, type and token
type), every call returns a pointer to the symbol it asks for, two calls return the same pointer
exactly when they ask for the same symbol, and ε and `$` stay the objects the constructor made. -/
theorem symbols_interned {e d : Nat} (hed : e ≠ d) {rs : List Request} {ps : List Nat}
    {t : SymbolTable} (h : Calls (new e d) rs ps t) :
    (t.symbols.map Prod.snd).Nodup ∧ ps.length = rs.length ∧
    (∀ x ∈ rs.zip ps, (x.2, x.1.key) ∈ t.symbols) ∧
    (∀ x ∈ rs.zip ps, ∀ y ∈ rs.zip ps, x.2 = y.2 ↔ x.1.key = y.1.key) ∧
    (e, epsilonSymbol) ∈ t.symbols ∧ (d, endOfInputSymbol) ∈ t.symbols := by
  obtain ⟨hI, hlen, hsub, hzip⟩ := h.interned (interned_new hed)
  exact ⟨hI.symbols, hlen, hzip, fun x hx y hy => hI.eq_iff (hzip x hx) (hzip y hy),
    hsub (interned_new hed).epsilon, hsub (interned_new hed).endOfInput⟩

theorem symbols_interned_x :
    ∃ t, Calls (new 0 1) [.getTerminal "x" .identifier, .getNonterminal "x",
        .getTerminal "x" .identifier, .getEpsilon] [2, 3, 2, 0] t ∧
      ((t.symbols.map Prod.snd).Nodup ∧ [2, 3, 2, 0].length = 4 ∧
        (∀ x ∈ ([.getTerminal "x" .identifier, .getNonterminal "x", .getTerminal "x" .identifier,
          .getEpsilon] : List Request).zip [2, 3, 2, 0], (x.2, x.1.key) ∈ t.symbols) ∧
        (∀ x ∈ ([.getTerminal "x" .identifier, .getNonterminal "x", .getTerminal "x" .identifier,
          .getEpsilon] : List Request).zip [2, 3, 2, 0],
          ∀ y ∈ ([.getTerminal "x" .identifier, .getNonterminal "x", .getTerminal "x" .identifier,
            .getEpsilon] : List Request).zip [2, 3, 2, 0], x.2 = y.2 ↔ x.1.key = y.1.key) ∧
        (0, epsilonSymbol) ∈ t.symbols ∧ (1, endOfInputSymbol) ∈ t.symbols) := by
  have h : Calls (new 0 1) [.getTerminal "x" .identifier, .getNonterminal "x",
      .getTerminal "x" .identifier, .getEpsilon] [2, 3, 2, 0]
      ⟨[(0, epsilonSymbol), (1, endOfInputSymbol), (2, .terminal "x" .identifier),
        (3, .nonterminal "x")], 0, 1⟩ :=
    .cons 2 (by decide) rfl (.cons 3 (by decide) rfl (.cons 4 (by decide) rfl
      (.cons 5 (by decide) rfl (.nil _))))
  exact ⟨_, h, symbols_interned (by decide) h⟩

end SymbolTable

end Ptr

/-! ## The value model -/

namespace SymbolTable

/-- The search and insertion of the value model's `getTerminal` and `getNonterminal`. -/
def intern (t : SymbolTable) (pred : Symbol → Bool) (sym : Symbol) : Symbol × SymbolTable :=
  match t.symbols.find? pred with
  | some s => (s, t)
  | none => (sym, ⟨t.symbols ++ [sym]⟩)

theorem getTerminal_eq_intern (t : SymbolTable) (name : String) (tt : TokenType) :
    t.getTerminal name tt =
      t.intern (fun s => s.name == name && s.isTerminal && s.tokenType == tt) (.terminal name tt) :=
  rfl

theorem getNonterminal_eq_intern (t : SymbolTable) (name : String) :
    t.getNonterminal name = t.intern (fun s => s.name == name && s.isNonterminal) (.nonterminal name) :=
  rfl

end SymbolTable

namespace Ptr.SymbolTable

/-- The value model's table: the symbols of the objects, in address order. -/
def toValue (t : SymbolTable) : Lalr1.SymbolTable := ⟨t.symbols.map Prod.snd⟩

/-- An object at an address above all others goes last. -/
theorem insert_eq_append {o : Nat × Symbol} :
    ∀ {objs : List (Nat × Symbol)}, (∀ o' ∈ objs, o'.1 < o.1) → insert o objs = objs ++ [o]
  | [], _ => rfl
  | o' :: objs, h => by
    have hlt := h o' (List.mem_cons_self _ _)
    have ih := insert_eq_append fun o'' h'' => h o'' (List.mem_cons_of_mem _ h'')
    simp only [insert, List.orderedInsert, if_neg (Nat.not_le.mpr hlt)] at ih ⊢
    rw [ih, List.cons_append]

/-- Refinement: `intern` returns a pointer to the symbol the value model's search returns, and
leaves the symbols of the value model's table, in the same order when the new address is above
the others. -/
theorem intern_refines (t : SymbolTable) (pred : Symbol → Bool) (sym : Symbol) (fresh : Nat) :
    ((t.intern pred sym fresh).1, ((toValue t).intern pred sym).1) ∈
        (t.intern pred sym fresh).2.symbols ∧
      (toValue (t.intern pred sym fresh).2).symbols.Perm ((toValue t).intern pred sym).2.symbols ∧
      ((∀ a ∈ t.symbols.map Prod.fst, a < fresh) →
        toValue (t.intern pred sym fresh).2 = ((toValue t).intern pred sym).2) := by
  have hfind : (t.symbols.map Prod.snd).find? pred = (t.symbols.find? fun o => pred o.2).map Prod.snd :=
    List.find?_map _ _
  unfold intern Lalr1.SymbolTable.intern toValue
  rw [hfind]
  cases hf : t.symbols.find? fun o => pred o.2 with
  | some o => exact ⟨List.mem_of_find?_eq_some hf, List.Perm.refl _, fun _ => rfl⟩
  | none =>
    refine ⟨mem_insert.mpr (.inl rfl), ((List.perm_orderedInsert _ _ _).map Prod.snd).trans
      (List.perm_append_singleton _ _).symm, fun hlt => ?_⟩
    rw [insert_eq_append fun o ho => hlt o.1 (List.mem_map_of_mem _ ho)]
    simp

theorem getTerminal_refines (t : SymbolTable) (name : String) (tt : TokenType) (fresh : Nat) :
    ((t.getTerminal name tt fresh).1, ((toValue t).getTerminal name tt).1) ∈
        (t.getTerminal name tt fresh).2.symbols ∧
      (toValue (t.getTerminal name tt fresh).2).symbols.Perm
        ((toValue t).getTerminal name tt).2.symbols ∧
      ((∀ a ∈ t.symbols.map Prod.fst, a < fresh) →
        toValue (t.getTerminal name tt fresh).2 = ((toValue t).getTerminal name tt).2) :=
  intern_refines t _ _ fresh

theorem getNonterminal_refines (t : SymbolTable) (name : String) (fresh : Nat) :
    ((t.getNonterminal name fresh).1, ((toValue t).getNonterminal name).1) ∈
        (t.getNonterminal name fresh).2.symbols ∧
      (toValue (t.getNonterminal name fresh).2).symbols.Perm ((toValue t).getNonterminal name).2.symbols ∧
      ((∀ a ∈ t.symbols.map Prod.fst, a < fresh) →
        toValue (t.getNonterminal name fresh).2 = ((toValue t).getNonterminal name).2) :=
  intern_refines t _ _ fresh

/-- The constructor gives the value model's table when `end_of_input_` is above `epsilon_`. -/
theorem toValue_new {e d : Nat} (h : e < d) : toValue (new e d) = Lalr1.SymbolTable.new := by
  have hins : insert (d, endOfInputSymbol) [(e, epsilonSymbol)] =
      [(e, epsilonSymbol), (d, endOfInputSymbol)] := insert_eq_append (by simpa using h)
  simp [toValue, new, hins, Lalr1.SymbolTable.new]

end Ptr.SymbolTable

end Lalr1
