import Mathlib
import Netlist.Proofs.Index
import Netlist.Proofs.Temporary

/-!
# Minters side by side

A minter looks for a free name by taking one number after the other, with no end in sight.
`Search g scope start turns found` is that search as it stands: it ends at `found`, in the last of
`turns` turns, where every name before was taken by the circuit `g`. It always ends, since the
circuit takes finitely many names and no two numbers share one.

Several minters of one circuit may be used in turns, in any order (`makeAll`). None of them knows
what the others have made, but their scopes differ, and a name tells the scope and the number that
it was made of. What a minter has made itself has a number below its counter (`Issued`). So each
new name differs from all names of the circuit and from all names given before.
-/

namespace Netlist.Minter

variable {g : Graph} {scope : Int}

/-- The search for a free name, turn by turn. -/
inductive Search (g : Graph) (scope : Int) : (start turns found : ℕ) → Prop
  | free {n : ℕ} (h : g.hasName (temporaryName scope n) = false) : Search g scope n 1 n
  | taken {n turns k : ℕ} (h : g.hasName (temporaryName scope n) = true)
      (rest : Search g scope (n + 1) turns k) : Search g scope n (turns + 1) k

/-- The numbers from `start` on whose name is free. -/
def freeFrom (g : Graph) (scope : Int) (start : ℕ) : Set ℕ :=
  {k | start ≤ k ∧ g.hasName (temporaryName scope k) = false}

/-- The search ends exactly at the first free number, and takes a turn for each number up to it. -/
theorem search_iff {start turns found : ℕ} : Search g scope start turns found ↔
    IsLeast (freeFrom g scope start) found ∧ start + turns = found + 1 := by
  constructor
  · intro h
    induction h with
    | free h => exact ⟨⟨⟨le_rfl, h⟩, fun k hk => hk.1⟩, rfl⟩
    | @taken n turns k h _ ih =>
      obtain ⟨⟨⟨hle, hk⟩, hleast⟩, hturns⟩ := ih
      refine ⟨⟨⟨by omega, hk⟩, fun j hj => ?_⟩, by omega⟩
      have hne : n ≠ j := by
        rintro rfl
        rw [hj.2] at h
        cases h
      exact hleast ⟨Nat.lt_of_le_of_ne hj.1 hne, hj.2⟩
  · rintro ⟨⟨⟨hle, hfree⟩, hleast⟩, hturns⟩
    induction turns generalizing start with
    | zero => omega
    | succ turns ih =>
      rcases hle.eq_or_lt with rfl | hlt
      · obtain rfl : turns = 0 := by omega
        exact .free hfree
      · have htaken : g.hasName (temporaryName scope start) = true := by
          by_contra hno
          have := hleast ⟨le_rfl, by simpa using hno⟩
          omega
        have hrest : found ∈ lowerBounds (freeFrom g scope (start + 1)) := fun j hj =>
          hleast ⟨Nat.le_of_succ_le hj.1, hj.2⟩
        exact .taken htaken (ih (by omega) hrest hlt)

theorem firstFree_le (taken : List Text) (scope : Int) (tries n : ℕ) :
    firstFree taken scope tries n ≤ n + tries := by
  induction tries generalizing n with
  | zero => exact le_rfl
  | succ tries ih =>
    rw [firstFree]
    split_ifs
    · have := ih (n + 1)
      omega
    · omega

/-- A minter of a circuit gives the first number from its counter on whose name is free. -/
theorem exists_mint_eq {m : Minter} (h : m.taken = g.nodes.map Node.name) (like : Node) :
    ∃ n, IsLeast (freeFrom g m.scope m.next) n ∧ n ≤ m.next + g.nodes.length ∧
      m.mint like =
        ({ name := temporaryName m.scope n, width := like.width, tag := m.tag },
          { m with next := n + 1 }) := by
  have htaken (name : Text) : name ∈ m.taken ↔ g.hasName name = true := by
    rw [h, List.mem_map, Graph.hasName_iff]
  have hbound := firstFree_le m.taken m.scope m.taken.length m.next
  have hlength : m.taken.length = g.nodes.length := by rw [h, List.length_map]
  refine ⟨_, ⟨⟨le_firstFree _ _, ?_⟩, fun k hk => ?_⟩, hlength ▸ hbound, rfl⟩
  · rw [← Bool.not_eq_true, ← htaken]
    exact firstFree_notMem m.next
  · by_contra hlt
    have hmem := mem_taken_of_lt_firstFree hk.1 (Nat.lt_of_not_le hlt)
    rw [htaken, hk.2] at hmem
    cases hmem

variable {ι : Type}

/-- What calls make and what becomes of the minters. Each call names the minter that is asked and
the node that the new one is to be as wide as. -/
def makeAll [DecidableEq ι] (s : ι → Minter) : List (ι × Node) → List Node × (ι → Minter)
  | [] => ([], s)
  | call :: calls =>
    let made := (s call.1).mint call.2
    let rest := makeAll (Function.update s call.1 made.2) calls
    (made.1 :: rest.1, rest.2)

/-- Minters of a circuit, with the scopes that they had at the start, after they have made nodes. -/
structure Issued (g : Graph) (scopes : ι → Int) (ts : List Node) (s : ι → Minter) : Prop where
  minter : ∀ i, s i = { ofGraph g (scopes i) with next := (s i).next }
  named : ∀ t ∈ ts, ∃ i, ∃ n < (s i).next, t.name = temporaryName (scopes i) n

namespace Issued

variable {scopes : ι → Int} {ts : List Node} {s : ι → Minter}

theorem start (g : Graph) (scopes : ι → Int) : Issued g scopes [] fun i => ofGraph g (scopes i) :=
  ⟨fun _ => rfl, List.forall_mem_nil _⟩

theorem scope_eq (h : Issued g scopes ts s) (i : ι) : (s i).scope = scopes i := by
  rw [h.minter i]
  rfl

theorem taken_eq (h : Issued g scopes ts s) (i : ι) : (s i).taken = g.nodes.map Node.name := by
  rw [h.minter i]
  rfl

theorem mint [DecidableEq ι] (h : Issued g scopes ts s) (i : ι) (like : Node) :
    Issued g scopes (ts ++ [((s i).mint like).1]) (Function.update s i ((s i).mint like).2) := by
  obtain ⟨n, hleast, -, hmint⟩ := exists_mint_eq (h.taken_eq i) like
  rw [hmint]
  refine ⟨fun j => ?_, fun t ht => ?_⟩
  · by_cases hj : j = i
    · subst hj
      rw [Function.update_self, h.minter j]
    · rw [Function.update_of_ne hj]
      exact h.minter j
  · rcases List.mem_append.1 ht with ht | ht
    · obtain ⟨j, k, hk, hname⟩ := h.named t ht
      refine ⟨j, k, ?_, hname⟩
      by_cases hj : j = i
      · subst hj
        rw [Function.update_self]
        exact Nat.lt_succ_of_lt (hk.trans_le hleast.1.1)
      · rwa [Function.update_of_ne hj]
    · obtain rfl := List.mem_singleton.1 ht
      refine ⟨i, n, ?_, by rw [h.scope_eq i]⟩
      rw [Function.update_self]
      exact Nat.lt_succ_self n

theorem makeAll [DecidableEq ι] (h : Issued g scopes ts s) (calls : List (ι × Node)) :
    Issued g scopes (ts ++ (Minter.makeAll s calls).1) (Minter.makeAll s calls).2 := by
  induction calls generalizing ts s with
  | nil => simpa [Minter.makeAll] using h
  | cons call calls ih =>
    have hrest := ih (h.mint call.1 call.2)
    rwa [List.append_assoc] at hrest

theorem lt_next (h : Issued g scopes ts s) (hscopes : Function.Injective scopes) {i : ι} {n : ℕ}
    {t : Node} (ht : t ∈ ts) (hname : t.name = temporaryName (scopes i) n) : n < (s i).next := by
  obtain ⟨j, k, hk, hname'⟩ := h.named t ht
  obtain ⟨hscope, rfl⟩ := temporaryName_inj (hname.symm.trans hname')
  rwa [hscopes hscope]

end Issued

/-- Minters of one circuit with different scopes make nodes in turns, in any order. Whatever has
been made so far, the search of the next call ends, after at most one turn more than the circuit has
nodes. It ends at the first number from the minter's counter on whose name the circuit leaves free.
The new node is as wide as the given one, and its name is not in the circuit and was not given
before by any minter; the numbers that were given before with the same scope are smaller. -/
theorem minting_ends_with_a_fresh_name [DecidableEq ι] (g : Graph) {scopes : ι → Int}
    (hscopes : Function.Injective scopes) (calls : List (ι × Node)) {ts : List Node}
    {s : ι → Minter} (h : makeAll (fun i => ofGraph g (scopes i)) calls = (ts, s)) (i : ι)
    (like : Node) : ∃ turns n,
      Search g (scopes i) (s i).next turns n ∧ turns ≤ g.nodes.length + 1 ∧
      IsLeast (freeFrom g (scopes i) (s i).next) n ∧
      (s i).mint like =
        ({ name := temporaryName (scopes i) n, width := like.width, tag := (s i).tag },
          { s i with next := n + 1 }) ∧
      (∀ v ∈ g.nodes, v.name ≠ temporaryName (scopes i) n) ∧
      (∀ t ∈ ts, t.name ≠ temporaryName (scopes i) n) ∧
      ∀ t ∈ ts, ∀ k, t.name = temporaryName (scopes i) k → k < n := by
  have hissued : Issued g scopes ts s := by
    have hrun := (Issued.start g scopes).makeAll calls
    rwa [h] at hrun
  obtain ⟨n, hleast, hbound, hmint⟩ := exists_mint_eq (hissued.taken_eq i) like
  have hmade : (s i).mint like =
      ({ name := temporaryName (scopes i) n, width := like.width, tag := (s i).tag },
        { s i with next := n + 1 }) := by
    rw [← hissued.scope_eq i]
    exact hmint
  rw [hissued.scope_eq i] at hleast
  have hle : (s i).next ≤ n := hleast.1.1
  have hlt : ∀ t ∈ ts, ∀ k, t.name = temporaryName (scopes i) k → k < n := fun t ht k hk =>
    (hissued.lt_next hscopes ht hk).trans_le hle
  have hsearch : Search g (scopes i) (s i).next (n + 1 - (s i).next) n :=
    search_iff.2 ⟨hleast, by omega⟩
  refine ⟨_, n, hsearch, by omega, hleast, hmade, fun v hv hname => ?_, fun t ht hname => ?_, hlt⟩
  · have hfree := hleast.1.2
    rw [Graph.hasName_iff.2 ⟨v, hv, hname⟩] at hfree
    cases hfree
  · exact Nat.lt_irrefl n (hlt t ht n hname)

/-- A circuit in which some names of two scopes are taken. -/
def numbered : Graph where
  operations := ["OPT1_0", "OPT11_1", "OPT1_2"].map fun x => ⟨⟨x, 8, .wire, 0⟩, 8, .input, []⟩

def numberedScopes (second : Bool) : Int := if second then 11 else 1

def numberedCalls : List (Bool × Node) :=
  [(false, ⟨"r", 12, .wire, 0⟩), (true, ⟨"r", 12, .wire, 0⟩), (false, ⟨"r", 12, .wire, 0⟩)]

theorem numbered_minting_ends :
    let made := makeAll (fun i => ofGraph numbered (numberedScopes i)) numberedCalls
    let like : Node := ⟨"r", 3, .wire, 0⟩
    Function.Injective numberedScopes ∧
      made.1.map Node.name = ["OPT1_1", "OPT11_0", "OPT1_3"] ∧
      (made.2 true).mint like =
        (⟨"OPT11_2", 3, .wire, 1⟩, { ofGraph numbered 11 with next := 3 }) ∧
      ∃ turns n,
        Search numbered 11 (made.2 true).next turns n ∧ turns ≤ 4 ∧
        IsLeast (freeFrom numbered 11 (made.2 true).next) n ∧
        (∀ v ∈ numbered.nodes, v.name ≠ temporaryName 11 n) ∧
        (∀ t ∈ made.1, t.name ≠ temporaryName 11 n) ∧
        ∀ t ∈ made.1, ∀ k, t.name = temporaryName 11 k → k < n := by
  have hscopes : Function.Injective numberedScopes := by decide
  obtain ⟨turns, n, hsearch, hturns, hleast, -, hnew⟩ :=
    minting_ends_with_a_fresh_name numbered hscopes numberedCalls rfl true
      ⟨"r", 3, .wire, 0⟩
  exact ⟨hscopes, by cbv, by cbv, turns, n, hsearch, hturns, hleast, hnew⟩

end Netlist.Minter
