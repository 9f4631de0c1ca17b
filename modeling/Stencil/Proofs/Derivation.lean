import Stencil.Condition.Parse
/-!
# The grammar of conditions

Conditions are derived from their tokens by the rules

    disjunction := conjunction (`||` conjunction)*
    conjunction := primary (`&&` primary)*
    primary     := run | `(` disjunction `)`

and groups nest at most so deep. `Derives depth ts c` says that the tokens are derived, and which
condition they are: a chain of one term is that term, and a group leaves nothing of its own.

The reader accepts just what is derived. What it has read at any time is a beginning of a
derivation (`Reader.Reads`): the groups that are open, and in each of them the terms that are
finished. A token takes one such beginning to the next (`Reader.Reads.step`), and at the end nothing
is open (`Reader.Reads.finish`). The other way around, a derivation is read term by term
(`Derives.ofTokens`).
-/

namespace Stencil.Condition

/-! ### Derivations -/

/-- Terms with a connective between them. -/
inductive Chain (connective : Token) (Term : List Token → Condition → Prop) :
    List Token → List Condition → Prop
  | one {ts : List Token} {c : Condition} (term : Term ts c) : Chain connective Term ts [c]
  | more {ts us : List Token} {c : Condition} {cs : List Condition} (term : Term ts c)
      (rest : Chain connective Term us cs) :
      Chain connective Term (ts ++ connective :: us) (c :: cs)

/-- Terms under a connective; a single term stands for itself. -/
def chained (connective : List Condition → Condition) : List Condition → Condition
  | [term] => term
  | terms => connective terms

/-- A run, or a group of what may stand in one. -/
inductive Primary (Group : List Token → Condition → Prop) : List Token → Condition → Prop
  | run (t : Text) : Primary Group [.run t] (ofRun t)
  | group {ts : List Token} {c : Condition} (inner : Group ts c) :
      Primary Group (.opening :: (ts ++ [.closing])) c

def Conjunction (Term : List Token → Condition → Prop) (ts : List Token) (c : Condition) : Prop :=
  ∃ terms, Chain .and Term ts terms ∧ c = chained all terms

def Disjunction (Term : List Token → Condition → Prop) (ts : List Token) (c : Condition) : Prop :=
  ∃ terms, Chain .or Term ts terms ∧ c = chained any terms

/-- What may stand in a group, where groups nest at most so deep, that one included. -/
def InGroup : Nat → List Token → Condition → Prop
  | 0 => fun _ _ => False
  | depth + 1 => Disjunction (Conjunction (Primary (InGroup depth)))

/-- The tokens are those of the condition, and groups nest at most so deep in it. -/
def Derives (depth : Nat) : List Token → Condition → Prop :=
  Disjunction (Conjunction (Primary (InGroup depth)))

variable {connective tok : Token} {Term : List Token → Condition → Prop} {depth : Nat}
  {ts us : List Token} {c : Condition} {cs : List Condition}

/-- A chain can be made longer at its end. -/
theorem Chain.concat (h : Chain connective Term ts cs) (term : Term us c) :
    Chain connective Term (ts ++ connective :: us) (cs ++ [c]) := by
  induction h with
  | one first => exact .more first (.one term)
  | @more ts vs c' cs first _ ih =>
    rw [List.append_assoc, List.cons_append, List.cons_append]
    exact .more first ih

/-- What holds of the tokens of terms, and passes to what the connective joins, holds of the tokens
of the chain. -/
theorem Chain.forall_tokens {Q : List Token → Prop} (hterm : ∀ ts c, Term ts c → Q ts)
    (hjoin : ∀ ts us, Q ts → Q us → Q (ts ++ connective :: us)) (h : Chain connective Term ts cs) :
    Q ts := by
  induction h with
  | one term => exact hterm _ _ term
  | more term _ ih => exact hjoin _ _ (hterm _ _ term) ih

/-- A term alone is a conjunction. -/
theorem Conjunction.single (h : Term ts c) : Conjunction Term ts c := ⟨[c], .one h, rfl⟩

/-- A conjunction alone is a disjunction. -/
theorem Disjunction.single (h : Term ts c) : Disjunction Term ts c := ⟨[c], .one h, rfl⟩

/-- Two or more terms are put together with the connective. -/
theorem chained_of_two_le {connective : List Condition → Condition} (h : 2 ≤ cs.length) :
    chained connective cs = connective cs := by
  rcases cs with _ | ⟨a, _ | ⟨b, cs⟩⟩
  · rfl
  · simp at h
  · rfl

/-- Terms are joined newest first. -/
theorem join_eq_chained (connective : List Condition → Condition) (terms : List Condition) :
    join connective terms = chained connective terms.reverse := by
  rcases terms with _ | ⟨a, _ | ⟨b, terms⟩⟩
  · rfl
  · rfl
  · rw [chained_of_two_le (by simp), join]
    simp

/-! ### What the reader has read -/

/-- The finished terms of a chain, newest first, and their tokens, each term with the connective
behind it. -/
def Begun (connective : Token) (Term : List Token → Condition → Prop) (ts : List Token)
    (done : List Condition) : Prop :=
  (ts = [] ∧ done = []) ∨ ∃ us, ts = us ++ [connective] ∧ Chain connective Term us done.reverse

/-- The tokens of an open group: those of the finished terms of `or`, then those of `and`. -/
def Group.Reads (g : Group) (depth : Nat) (ts : List Token) : Prop :=
  ∃ os as, ts = os ++ as ∧ Begun .or (Conjunction (Primary (InGroup depth))) os g.ors ∧
    Begun .and (Primary (InGroup depth)) as g.ands

/-- The tokens up to the bracket of the innermost open group; the groups are given innermost
first. -/
def Enclosing : List Group → List Token → Prop
  | [], ts => ts = []
  | g :: outer, ts => ∃ us vs, ts = us ++ vs ++ [.opening] ∧ Enclosing outer us ∧
      g.Reads (maxNesting - outer.length) vs ∧ outer.length < maxNesting

/-- The reader has read the tokens. -/
def Reader.Reads (ts : List Token) : Reader → Prop
  | needsOperand g outer => ∃ us vs, ts = us ++ vs ∧ Enclosing outer us ∧
      g.Reads (maxNesting - outer.length) vs
  | hasTerm g term outer => ∃ us vs ws, ts = us ++ vs ++ ws ∧ Enclosing outer us ∧
      g.Reads (maxNesting - outer.length) vs ∧
      Primary (InGroup (maxNesting - outer.length)) ws term

/-- A term behind a connective, or at the beginning, ends a chain. -/
theorem Begun.chain {done : List Condition} (h : Begun connective Term ts done) (term : Term us c) :
    Chain connective Term (ts ++ us) (c :: done).reverse := by
  rw [List.reverse_cons]
  rcases h with ⟨rfl, rfl⟩ | ⟨vs, rfl, hchain⟩
  · exact .one term
  · rw [List.append_assoc]
    exact hchain.concat term

/-- A connective behind it begins the next term. -/
theorem Begun.more {done : List Condition} (h : Begun connective Term ts done) (term : Term us c) :
    Begun connective Term (ts ++ us ++ [connective]) (c :: done) :=
  .inr ⟨ts ++ us, rfl, h.chain term⟩

namespace Group

variable {g : Group}

/-- Before its first token a group has read nothing. -/
theorem reads_empty (depth : Nat) : empty.Reads depth [] :=
  ⟨[], [], rfl, .inl ⟨rfl, rfl⟩, .inl ⟨rfl, rfl⟩⟩

/-- A conjunction that goes on: the group has read a term and `&&`. -/
theorem Reads.conjoin (h : g.Reads depth ts) (term : Primary (InGroup depth) us c) :
    (g.conjoin c).Reads depth (ts ++ us ++ [.and]) := by
  obtain ⟨os, as, rfl, hors, hands⟩ := h
  exact ⟨os, as ++ us ++ [.and], by simp, hors, hands.more term⟩

/-- The chain of `and` that a term ends is a term of `or`. -/
theorem Reads.conjunction {as : List Token}
    (hands : Begun .and (Primary (InGroup depth)) as g.ands) (term : Primary (InGroup depth) us c) :
    Conjunction (Primary (InGroup depth)) (as ++ us) (join all (c :: g.ands)) :=
  ⟨_, hands.chain term, join_eq_chained all _⟩

/-- A disjunction that goes on: the group has read a term and `||`. -/
theorem Reads.disjoin (h : g.Reads depth ts) (term : Primary (InGroup depth) us c) :
    (g.disjoin c).Reads depth (ts ++ us ++ [.or]) := by
  obtain ⟨os, as, rfl, hors, hands⟩ := h
  have hmore := hors.more (Reads.conjunction hands term)
  exact ⟨os ++ (as ++ us) ++ [.or], [], by simp, hmore, .inl ⟨rfl, rfl⟩⟩

/-- A group that ends is derived from what it has read. -/
theorem Reads.close (h : g.Reads depth ts) (term : Primary (InGroup depth) us c) :
    Derives depth (ts ++ us) (g.close c) := by
  obtain ⟨os, as, rfl, hors, hands⟩ := h
  refine ⟨_, ?_, join_eq_chained any _⟩
  rw [List.append_assoc]
  exact hors.chain (Reads.conjunction hands term)

end Group

namespace Reader

/-- One more token is read. -/
theorem Reads.step {r r' : Reader} (h : r.Reads ts) (hstep : r.step tok = .ok r') :
    r'.Reads (ts ++ [tok]) := by
  unfold Reader.step at hstep
  split at hstep
  -- a run is a term
  · next g outer t =>
    cases hstep
    obtain ⟨us, vs, rfl, houter, hg⟩ := h
    exact ⟨us, vs, _, rfl, houter, hg, .run t⟩
  -- a bracket opens a group, unless groups are nested too deeply
  · next g outer =>
    split at hstep
    · cases hstep
    · next hdeep =>
      cases hstep
      obtain ⟨us, vs, rfl, houter, hg⟩ := h
      -- nothing of the inner group has been read yet
      exact ⟨_, [], (List.append_nil _).symm, ⟨us, vs, rfl, houter, hg, Nat.lt_of_not_le hdeep⟩,
        Group.reads_empty _⟩
  · next g term outer =>
    cases hstep
    obtain ⟨us, vs, ws, rfl, houter, hg, hterm⟩ := h
    exact ⟨us, vs ++ ws ++ [.and], by simp, houter, hg.conjoin hterm⟩
  · next g term outer =>
    cases hstep
    obtain ⟨us, vs, ws, rfl, houter, hg, hterm⟩ := h
    exact ⟨us, vs ++ ws ++ [.or], by simp, houter, hg.disjoin hterm⟩
  · next g term o outer =>
    cases hstep
    obtain ⟨us, vs, ws, rfl, houter, hg, hterm⟩ := h
    obtain ⟨us, os, rfl, houter, ho, hlt⟩ := houter
    -- the group that is closed is a term of the one around it, which admits one level more
    have hdepth : maxNesting - outer.length = maxNesting - (outer.length + 1) + 1 := by omega
    have hgroup : Primary (InGroup (maxNesting - outer.length))
        (.opening :: (vs ++ ws ++ [.closing])) (g.close term) := by
      rw [hdepth]
      exact .group (hg.close hterm)
    exact ⟨us, os, _, by simp, houter, ho, hgroup⟩
  · cases hstep

/-- All tokens are read. -/
theorem Reads.foldlM {r r' : Reader} (h : r.Reads ts)
    (hfold : us.foldlM Reader.step r = .ok r') :
    r'.Reads (ts ++ us) := by
  induction us generalizing r ts with
  | nil =>
    cases hfold
    rwa [List.append_nil]
  | cons tok us ih =>
    rw [List.foldlM_cons] at hfold
    cases hstep : r.step tok with
    | error e =>
      rw [hstep] at hfold
      cases hfold
    | ok r₁ =>
      rw [hstep] at hfold
      have hrest := ih (h.step hstep) hfold
      rwa [List.append_assoc] at hrest

/-- At the end no group is open. -/
theorem Reads.finish {r : Reader} (h : r.Reads ts) (hfinish : r.finish = .ok c) :
    Derives maxNesting ts c := by
  unfold Reader.finish at hfinish
  split at hfinish
  · cases hfinish
    obtain ⟨us, vs, ws, rfl, rfl, hg, hterm⟩ := h
    exact hg.close hterm
  · cases hfinish

end Reader

/-! ### Derivations are read -/

/-- The reader goes through the tokens of an operand, whatever it has read before. -/
def ReadAsTerm (depth : Nat) (ts : List Token) (c : Condition) : Prop :=
  ∀ g outer, outer.length + depth ≤ maxNesting →
    ts.foldlM Reader.step (.needsOperand g outer) = .ok (.hasTerm g c outer)

/-- What is read behind tokens is read behind the last of them. -/
theorem foldlM_append_of_ok {r r' : Reader} (h : ts.foldlM Reader.step r = .ok r') :
    (ts ++ us).foldlM Reader.step r = us.foldlM Reader.step r' := by
  rw [List.foldlM_append, h]
  rfl

/-- A chain of `and` is read into the group: its last term is held, the others are finished. -/
theorem Chain.read_and (hterm : ∀ ts c, Term ts c → ReadAsTerm depth ts c)
    (h : Chain .and Term ts cs) (g : Group) {outer : List Group}
    (hdepth : outer.length + depth ≤ maxNesting) :
    ∃ g' last, ts.foldlM Reader.step (.needsOperand g outer) = .ok (.hasTerm g' last outer) ∧
      g'.ors = g.ors ∧ last :: g'.ands = cs.reverse ++ g.ands := by
  induction h generalizing g with
  | one term => exact ⟨g, _, hterm _ _ term g outer hdepth, rfl, rfl⟩
  | @more ts us c cs term _ ih =>
    obtain ⟨g', last, hread, hors, hands⟩ := ih (g.conjoin c)
    refine ⟨g', last, ?_, hors, ?_⟩
    · rw [foldlM_append_of_ok (hterm _ _ term g outer hdepth)]
      exact hread
    · rw [hands, List.reverse_cons, List.append_assoc]
      rfl

/-- A chain of `or` is read into a group in which no chain of `and` is begun. -/
theorem Chain.read_or (hterm : ∀ ts c, Term ts c → ReadAsTerm depth ts c)
    (h : Chain .or (Conjunction Term) ts cs) {g : Group} (hg : g.ands = []) {outer : List Group}
    (hdepth : outer.length + depth ≤ maxNesting) :
    ∃ g' last, ts.foldlM Reader.step (.needsOperand g outer) = .ok (.hasTerm g' last outer) ∧
      (g'.disjoin last).ors = cs.reverse ++ g.ors := by
  -- one term of the chain, itself a chain of `and`
  have hfirst : ∀ {ts c} {g : Group}, g.ands = [] → Conjunction Term ts c →
      ∃ g' last, ts.foldlM Reader.step (.needsOperand g outer) = .ok (.hasTerm g' last outer) ∧
        (g'.disjoin last).ors = c :: g.ors := by
    rintro ts c g hg ⟨terms, hchain, rfl⟩
    obtain ⟨g', last, hread, hors, hands⟩ := hchain.read_and hterm g hdepth
    refine ⟨g', last, hread, ?_⟩
    -- what is put together is the chain of this term, since the group had no conjunction begun
    show join all (last :: g'.ands) :: g'.ors = _
    rw [hands, hg, List.append_nil, join_eq_chained, List.reverse_reverse, hors]
  induction h generalizing g with
  | one term => exact hfirst hg term
  | @more ts us c cs term _ ih =>
    obtain ⟨g₁, last₁, hread₁, hors₁⟩ := hfirst hg term
    obtain ⟨g', last, hread, hors⟩ := ih (g := g₁.disjoin last₁) rfl
    refine ⟨g', last, ?_, ?_⟩
    · rw [foldlM_append_of_ok hread₁]
      exact hread
    · rw [hors, hors₁, List.reverse_cons, List.append_assoc]
      rfl

/-- A disjunction of what is read as terms is read in a group of its own. -/
theorem Disjunction.read (hterm : ∀ ts c, Term ts c → ReadAsTerm depth ts c)
    (h : Disjunction (Conjunction Term) ts c) {outer : List Group}
    (hdepth : outer.length + depth ≤ maxNesting) :
    ∃ g last, ts.foldlM Reader.step (.needsOperand .empty outer) = .ok (.hasTerm g last outer) ∧
      g.close last = c := by
  obtain ⟨terms, hchain, rfl⟩ := h
  obtain ⟨g, last, hread, hors⟩ := hchain.read_or hterm (g := .empty) rfl hdepth
  refine ⟨g, last, hread, ?_⟩
  rw [Group.close, hors, join_eq_chained]
  show chained any (terms.reverse ++ []).reverse = _
  rw [List.append_nil, List.reverse_reverse]

/-- An operand is read as a term, by induction on how deep groups may nest in it. -/
theorem Primary.read (h : Primary (InGroup depth) ts c) : ReadAsTerm depth ts c := by
  induction depth generalizing ts c with
  | zero =>
    -- no group is admitted at the last level
    intro g outer hdepth
    cases h with
    | run t => rfl
    | group inner => exact inner.elim
  | succ depth ih =>
    intro g outer hdepth
    cases h with
    | run t => rfl
    | @group ts c inner =>
      have hinner : (g :: outer).length + depth ≤ maxNesting := by
        rw [List.length_cons]
        omega
      -- the inner group is read up to its bracket, which makes it a term of the outer one
      obtain ⟨g', last, hread, rfl⟩ := Disjunction.read (fun _ _ => ih) inner hinner
      have hopen : Reader.step (.needsOperand g outer) .opening =
          .ok (.needsOperand .empty (g :: outer)) := by
        have hlt : ¬ maxNesting ≤ outer.length := by omega
        rw [Reader.step, if_neg hlt]
      rw [List.foldlM_cons, hopen]
      show (ts ++ [Token.closing]).foldlM Reader.step _ = _
      rw [foldlM_append_of_ok hread]
      rfl

/-- What is derived is read to its end. -/
theorem Derives.ofTokens (h : Derives maxNesting ts c) : ofTokens ts = .ok c := by
  have hdepth : ([] : List Group).length + maxNesting ≤ maxNesting := by simp
  obtain ⟨g, last, hread, hclose⟩ := Disjunction.read (fun _ _ => Primary.read) h hdepth
  rw [Condition.ofTokens, Reader.start, hread]
  show Except.ok (g.close last) = _
  rw [hclose]

/-- The reader accepts exactly the tokens that are derived. -/
theorem ofTokens_eq_ok_iff : ofTokens ts = .ok c ↔ Derives maxNesting ts c := by
  constructor
  · intro h
    unfold Condition.ofTokens at h
    cases hfold : ts.foldlM Reader.step .start with
    | error e =>
      rw [hfold] at h
      cases h
    | ok r =>
      rw [hfold] at h
      have hstart : Reader.start.Reads [] := ⟨[], [], rfl, rfl, Group.reads_empty _⟩
      exact (Reader.Reads.foldlM hstart hfold).finish h
  · exact Derives.ofTokens

/-- The text writes the condition: it is not blank, and its tokens, with a closing bracket for every
opening one in excess, are derived, with groups at most `maxNesting` deep. -/
def Writes (t : Text) (c : Condition) : Prop :=
  Text.isBlankText t = false ∧
    Derives maxNesting (Token.ofText t ++ List.replicate
      ((Token.ofText t).count .opening - (Token.ofText t).count .closing) .closing) c

/-- Reading a text gives exactly the condition the text writes. -/
theorem parse_eq_ok_iff {t : Text} : parse t = .ok c ↔ Writes t c := by
  rw [parse, Writes]
  split
  · next hblank => simp [hblank]
  · next hblank =>
    rw [ofTokens_eq_ok_iff, Token.closed]
    simp [hblank]

/-! ### What a condition says -/

/-- A condition is true: a comparison that holds, all terms of a conjunction, or one of a
disjunction. -/
inductive Satisfied : Condition → Prop
  | test {c : Comparison} (holds : c.holds = true) : Satisfied (.test c)
  | all {terms : List Condition} (each : ∀ x ∈ terms, Satisfied x) : Satisfied (.all terms)
  | any {terms : List Condition} {x : Condition} (mem : x ∈ terms) (holds : Satisfied x) :
      Satisfied (.any terms)

/-- A condition that is satisfied holds. -/
theorem Satisfied.holds (h : c.Satisfied) : c.holds = true := by
  induction h with
  | test hc => rwa [Condition.holds]
  | all _ ih => rwa [Condition.holds, allHold_eq_all, List.all_eq_true]
  | any mem _ ih =>
    rw [Condition.holds, anyHolds_eq_any, List.any_eq_true]
    exact ⟨_, mem, ih⟩

mutual

theorem satisfied_of_holds : ∀ c : Condition, c.holds = true → c.Satisfied
  | .never, h => by
    rw [Condition.holds] at h
    cases h
  | .test c, h => by
    rw [Condition.holds] at h
    exact .test h
  | .all terms, h => by
    rw [Condition.holds] at h
    exact .all (satisfied_of_allHold terms h)
  | .any terms, h => by
    rw [Condition.holds] at h
    obtain ⟨x, hx, hsat⟩ := satisfied_of_anyHolds terms h
    exact .any hx hsat

theorem satisfied_of_allHold : ∀ cs : List Condition, allHold cs = true → ∀ x ∈ cs, x.Satisfied
  | [], _ => nofun
  | c :: cs, h => by
    rw [allHold, Bool.and_eq_true] at h
    exact List.forall_mem_cons.2 ⟨satisfied_of_holds c h.1, satisfied_of_allHold cs h.2⟩

theorem satisfied_of_anyHolds : ∀ cs : List Condition, anyHolds cs = true → ∃ x ∈ cs, x.Satisfied
  | [], h => by
    rw [anyHolds] at h
    cases h
  | c :: cs, h => by
    rw [anyHolds, Bool.or_eq_true] at h
    rcases h with h | h
    · exact ⟨c, List.mem_cons_self, satisfied_of_holds c h⟩
    · obtain ⟨x, hx, hsat⟩ := satisfied_of_anyHolds cs h
      exact ⟨x, List.mem_cons_of_mem c hx, hsat⟩

end

/-- So being satisfied is being evaluated to true. -/
theorem satisfied_iff_holds : c.Satisfied ↔ c.holds = true :=
  ⟨Satisfied.holds, satisfied_of_holds c⟩

/-- Reading gives just the condition that a text writes, and a text is true just if it writes a
condition that is. -/
theorem parse_gives_derivation (t : Text) :
    (∀ c, parse t = .ok c ↔ Writes t c) ∧
      (evaluate t = true ↔ ∃ c, Writes t c ∧ c.Satisfied) := by
  refine ⟨fun c => parse_eq_ok_iff, ?_⟩
  unfold evaluate
  constructor
  · intro h
    split at h
    · next c hc => exact ⟨c, parse_eq_ok_iff.1 hc, satisfied_iff_holds.2 h⟩
    · cases h
  · rintro ⟨c, hwrites, hsat⟩
    rw [parse_eq_ok_iff.2 hwrites]
    exact satisfied_iff_holds.1 hsat

/-- `and` binds tighter than `or`. -/
example : parse "a||b&&c".toList = .ok (.any [.never, .all [.never, .never]]) := rfl

end Stencil.Condition
