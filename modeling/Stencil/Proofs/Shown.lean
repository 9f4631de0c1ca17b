import Mathlib.Data.List.Forall2
import Mathlib.Logic.Function.Basic
import Stencil.Proofs.Content
import Stencil.Proofs.Grammar
/-!
# What a tree shows

The results of calls come in one by one, so at any time of a run the document is what its tree shows
when some of its calls are replaced by their results: `shown`. Each `$` of a document carries the
place in the source where it was written, which tells the call that begins there: the `stamps`.

Where a `$` is shown, a call of the tree begins, its brackets match, and its result takes exactly
its place (`exists_opensAt`). Once no `$` is shown any more, every call has its result
(`shown_eq_plain_fill`).
-/

namespace Stencil

/-! ### Stamps -/

/-- A character, and for a `$` the place where it was written. -/
abbrev Stamp := Char × Option Nat

def stamp (c : Char) (place : Option Nat) : Stamp := (c, if c = '$' then place else none)

/-- The characters of a text, each `$` with its place. -/
def stamps (t : Text) (places : List (Option Nat)) : List Stamp := List.zipWith stamp t places

/-- The characters of a text without their places. -/
def plain (t : Text) : List Stamp := t.map (·, none)

@[simp] theorem map_fst_plain (t : Text) : (plain t).map Prod.fst = t := by
  simp [plain, Function.comp_def]

@[simp] theorem length_plain (t : Text) : (plain t).length = t.length := List.length_map _

theorem not_mem_plain (t : Text) (c : Char) (x : Nat) : (c, some x) ∉ plain t := by
  simp [plain]

theorem map_fst_stamps {t : Text} {places : List (Option Nat)} (h : t.length = places.length) :
    (stamps t places).map Prod.fst = t := by
  induction t generalizing places with
  | nil => rfl
  | cons c t ih =>
    cases places with
    | nil => cases h
    | cons place places =>
      have hrest := ih (Nat.succ.inj h)
      rw [stamps] at hrest
      rw [stamps, List.zipWith_cons_cons, List.map_cons, hrest]
      rfl

theorem cut_stamps (s : Span) (t : Text) (places : List (Option Nat)) :
    s.cut (stamps t places) = stamps (s.cut t) (s.cut places) := by
  simp only [stamps, Span.cut, List.drop_zipWith, List.take_zipWith]

theorem graft_stamps {t r : Text} {places new : List (Option Nat)} (h : t.length = places.length)
    (hnew : r.length = new.length) (s : Span) :
    stamps (s.graft r t) (s.graft new places) = s.graft (stamps r new) (stamps t places) := by
  have htake : (t.take s.start).length = (places.take s.start).length := by
    rw [List.length_take, List.length_take, h]
  rw [stamps, Span.graft, Span.graft, List.zipWith_append (by simp [h, hnew]),
    List.zipWith_append htake, Span.graft]
  simp only [stamps, List.take_zipWith, List.drop_zipWith]

/-- A text without places. -/
theorem stamps_replicate_none (t : Text) : stamps t (List.replicate t.length none) = plain t := by
  induction t with
  | nil => rfl
  | cons c t ih =>
    rw [stamps] at ih
    rw [stamps, List.length_cons, List.replicate_succ, List.zipWith_cons_cons, ih]
    simp [stamp, plain]

theorem getElem?_stamps {t : Text} {places : List (Option Nat)} {i : Nat} {place : Option Nat}
    (ht : t[i]? = some '$') (hplace : places[i]? = some place) :
    (stamps t places)[i]? = some ('$', place) := by
  rw [stamps, List.getElem?_zipWith, ht, hplace]
  rfl

/-- Only what has a place is stamped with it. -/
theorem getElem?_of_stamps {t : Text} {places : List (Option Nat)} {i x : Nat} {c : Char}
    (h : (stamps t places)[i]? = some (c, some x)) : places[i]? = some (some x) := by
  rw [stamps, List.getElem?_zipWith] at h
  cases ht : t[i]? with
  | none => simp [ht] at h
  | some d =>
    cases hplace : places[i]? with
    | none => simp [ht, hplace] at h
    | some place =>
      simp only [ht, hplace, stamp, Option.some.injEq, Prod.mk.injEq] at h
      split at h
      · rw [h.2]
      · cases h.2

namespace Content

variable {names : List Text} {top : Bool} {q q' piece : Content} {site : Site} {x : Nat}
  {results : Nat → Option Text} {before behind rest : List Stamp}

/-! ### Trees and results -/

/-- What a tree shows when some of its calls are replaced by their results. -/
def shown (results : Nat → Option Text) : Content → List Stamp
  | empty => []
  | char c rest => (c, none) :: rest.shown results
  | group inner rest => ('[', none) :: (inner.shown results ++ (']', none) :: rest.shown results)
  | call place stem inner rest =>
    (match results place with
      | some result => plain (Text.escape result)
      | none => ('$', some place) :: (plain stem ++ ('[', none) ::
          (inner.shown results ++ [(']', none)]))) ++ rest.shown results

theorem shown_call_of_some {place : Nat} {result : Text} (h : results place = some result)
    (stem : Text) (inner rest : Content) :
    (call place stem inner rest).shown results =
      plain (Text.escape result) ++ rest.shown results := by
  rw [shown, h]

theorem shown_call_of_none {place : Nat} (h : results place = none) (stem : Text)
    (inner rest : Content) :
    (call place stem inner rest).shown results = ('$', some place) :: (plain stem ++ ('[', none) ::
      (inner.shown results ++ (']', none) :: rest.shown results)) := by
  rw [shown, h]
  simp

/-- A result matters only where its call is. -/
theorem shown_update_of_not_mem (h : x ∉ q.labels) (result : Option Text) :
    q.shown (Function.update results x result) = q.shown results := by
  induction q with
  | empty => rfl
  | char c rest ih => rw [shown, shown, ih h]
  | group inner rest ihInner ihRest =>
    rw [labels_group, List.mem_append, not_or] at h
    rw [shown, shown, ihInner h.1, ihRest h.2]
  | call place stem inner rest ihInner ihRest =>
    rw [labels_call, List.mem_cons, List.mem_append, not_or, not_or] at h
    rw [shown, shown, ihInner h.2.1, ihRest h.2.2, Function.update_of_ne (Ne.symm h.1)]

/-- The text when every call is replaced by its result. -/
def fill (returned : Nat → Text) : Content → Text
  | empty => []
  | char c rest => c :: rest.fill returned
  | group inner rest => '[' :: (inner.fill returned ++ ']' :: rest.fill returned)
  | call place _ _ rest => Text.escape (returned place) ++ rest.fill returned

/-- When no `$` is shown, every call is replaced. -/
theorem shown_eq_plain_fill {returned : Nat → Text}
    (hreturned : ∀ y r, results y = some r → returned y = r)
    (h : ∀ y, ('$', some y) ∉ q.shown results) : q.shown results = plain (q.fill returned) := by
  induction q with
  | empty => rfl
  | char c rest ih =>
    rw [shown] at h
    rw [shown, fill, ih fun y hy => h y (List.mem_cons_of_mem _ hy)]
    rfl
  | group inner rest ihInner ihRest =>
    rw [shown] at h
    have hinner := ihInner fun y hy => h y (by simp [hy])
    have hrest := ihRest fun y hy => h y (by simp [hy])
    rw [shown, fill, hinner, hrest]
    simp [plain]
  | call place stem inner rest _ ihRest =>
    cases hres : results place with
    | none =>
      rw [shown_call_of_none hres] at h
      exact absurd List.mem_cons_self (h place)
    | some result =>
      rw [shown_call_of_some hres] at h
      have hrest := ihRest fun y hy => h y (List.mem_append_right _ hy)
      rw [shown_call_of_some hres, fill, hrest, hreturned place result hres]
      simp [plain]

/-- A `$` that is shown begins a call of the tree. -/
theorem mem_labels_of_mem_shown (h : ('$', some x) ∈ q.shown results) : x ∈ q.labels := by
  induction q with
  | empty => cases h
  | char c rest ih =>
    rw [shown, List.mem_cons] at h
    exact ih (h.resolve_left nofun)
  | group inner rest ihInner ihRest =>
    rw [labels_group, List.mem_append]
    simp only [shown, List.mem_cons, List.mem_append, Prod.mk.injEq, reduceCtorEq, and_false,
      false_or] at h
    exact h.imp ihInner ihRest
  | call place stem inner rest ihInner ihRest =>
    rw [labels_call, List.mem_cons, List.mem_append]
    cases hres : results place with
    | some result =>
      rw [shown_call_of_some hres, List.mem_append] at h
      exact .inr (.inr (ihRest (h.resolve_left (not_mem_plain _ _ _))))
    | none =>
      rw [shown_call_of_none hres] at h
      simp only [List.mem_cons, List.mem_append, Prod.mk.injEq, Option.some.injEq, true_and,
        not_mem_plain, reduceCtorEq, and_false, false_or] at h
      exact h.imp_right fun h => h.imp ihInner ihRest

/-- Before any call has returned every call is shown. -/
theorem mem_shown_of_mem_labels (h : x ∈ q.labels) : ('$', some x) ∈ q.shown fun _ => none := by
  induction q with
  | empty => cases h
  | char c rest ih => exact List.mem_cons_of_mem _ (ih h)
  | group inner rest ihInner ihRest =>
    rw [labels_group, List.mem_append] at h
    rw [shown, List.mem_cons, List.mem_append, List.mem_cons]
    exact .inr (h.imp ihInner fun hrest => .inr (ihRest hrest))
  | call place stem inner rest ihInner ihRest =>
    rw [labels_call, List.mem_cons, List.mem_append] at h
    rw [shown_call_of_none rfl, List.mem_cons, List.mem_append, List.mem_cons, List.mem_append,
      List.mem_cons]
    rcases h with rfl | hinner | hrest
    · exact .inl rfl
    · exact .inr (.inr (.inr (.inl (ihInner hinner))))
    · exact .inr (.inr (.inr (.inr (.inr (ihRest hrest)))))

/-- What stands inside of a call that has returned is not shown. -/
theorem not_mem_shown_of_inner (results : Nat → Option Text) (hnodup : q.labels.Nodup)
    (hsite : site ∈ q.sites)
    (hreturned : results site.place ≠ none) (hx : x ∈ site.inner.labels) :
    ('$', some x) ∉ q.shown results := by
  -- of two parts with different calls only one has the call
  have apart : ∀ {a b : Content}, (a.labels ++ b.labels).Nodup →
      (site ∈ a.sites → ('$', some x) ∉ b.shown results) ∧
        (site ∈ b.sites → ('$', some x) ∉ a.shown results) := by
    intro a b hboth
    have hdisjoint := (List.nodup_append.1 hboth).2.2
    exact ⟨fun h hshown =>
        hdisjoint x (labels_inner_subset h hx) x (mem_labels_of_mem_shown hshown) rfl,
      fun h hshown =>
        hdisjoint x (mem_labels_of_mem_shown hshown) x (labels_inner_subset h hx) rfl⟩
  induction q with
  | empty => cases hsite
  | char c rest ih =>
    rw [shown, List.mem_cons, not_or]
    exact ⟨nofun, ih hnodup hsite⟩
  | group inner rest ihInner ihRest =>
    rw [labels_group] at hnodup
    obtain ⟨hinner, hrest, -⟩ := List.nodup_append.1 hnodup
    simp only [shown, List.mem_cons, List.mem_append, Prod.mk.injEq, reduceCtorEq, and_false,
      false_or, not_or]
    rcases List.mem_append.1 hsite with hsite | hsite
    · exact ⟨ihInner hinner hsite, (apart hnodup).1 hsite⟩
    · exact ⟨(apart hnodup).2 hsite, ihRest hrest hsite⟩
  | call place stem inner rest ihInner ihRest =>
    rw [labels_call] at hnodup
    obtain ⟨hplace, hboth⟩ := List.nodup_cons.1 hnodup
    obtain ⟨hinner, hrest, -⟩ := List.nodup_append.1 hboth
    cases hres : results place with
    | some result =>
      rw [shown_call_of_some hres, List.mem_append, not_or]
      refine ⟨not_mem_plain _ _ _, ?_⟩
      rcases List.mem_cons.1 hsite with rfl | hsite
      · exact fun hshown => (List.nodup_append.1 hboth).2.2 x hx x (mem_labels_of_mem_shown hshown) rfl
      rcases List.mem_append.1 hsite with hsite | hsite
      · exact (apart hboth).1 hsite
      · exact ihRest hrest hsite
    | none =>
      -- the call itself has not returned, and its place is not inside of another one
      have hparts : site ∈ inner.sites ∨ site ∈ rest.sites := List.mem_append.1
        ((List.mem_cons.1 hsite).resolve_left fun heq => hreturned (heq ▸ hres))
      have hne : x ≠ place := by
        rintro rfl
        exact hplace (List.mem_append.2
          (hparts.imp (labels_inner_subset · hx) (labels_inner_subset · hx)))
      simp only [shown_call_of_none hres, List.mem_cons, List.mem_append, Prod.mk.injEq,
        Option.some.injEq, true_and, not_mem_plain, reduceCtorEq, and_false, false_or, not_or]
      refine ⟨hne, ?_⟩
      rcases hparts with hsite | hsite
      · exact ⟨ihInner hinner hsite, (apart hboth).1 hsite⟩
      · exact ⟨(apart hboth).2 hsite, ihRest hrest hsite⟩

/-! ### Calls where a `$` is shown -/

theorem cases_append_cons {α : Type} {as bs before behind : List α} {a : α}
    (h : as ++ bs = before ++ a :: behind) :
    (∃ mid, as = before ++ a :: mid ∧ behind = mid ++ bs) ∨
      ∃ mid, before = as ++ mid ∧ bs = mid ++ a :: behind := by
  rcases List.append_eq_append_iff.1 h with ⟨mid, rfl, rfl⟩ | ⟨mid, rfl, hmid⟩
  · exact .inr ⟨mid, rfl, rfl⟩
  · cases mid with
    | nil => exact .inr ⟨[], by simp, hmid.symm⟩
    | cons b mid =>
      obtain ⟨rfl, rfl⟩ := List.cons.inj hmid
      exact .inl ⟨mid, rfl, rfl⟩

theorem exists_of_not_mem {α : Type} (as : List α) {bs before behind : List α} {a : α}
    (h : as ++ bs = before ++ a :: behind) (ha : a ∉ as) :
    ∃ mid, before = as ++ mid ∧ bs = mid ++ a :: behind := by
  rcases cases_append_cons h with ⟨mid, rfl, -⟩ | h
  · exact absurd (List.mem_append_right _ List.mem_cons_self) ha
  · exact h

/-- Between `before` and `rest` the tree shows a call, and its result can stand there instead.
`behind` is what is shown behind the `$` of the call. -/
structure OpensAt (results : Nat → Option Text) (q : Content) (before behind : List Stamp)
    (site : Site) (rest : List Stamp) : Prop where
  mem : site ∈ q.sites
  missing : results site.place = none
  behind_eq : behind = plain site.stem ++ ('[', none) ::
    (site.inner.shown results ++ (']', none) :: rest)
  exchange : ∀ result, q.shown (Function.update results site.place (some result)) =
    before ++ (plain (Text.escape result) ++ rest)

/-- What is shown in a part of a tree is shown in the whole. -/
theorem OpensAt.lift (h : OpensAt results q before behind site rest) (q' : Content)
    (pre post : List Stamp) (hsites : q.sites ⊆ q'.sites)
    (hshown : ∀ result, q'.shown (Function.update results site.place result) =
      pre ++ (q.shown (Function.update results site.place result) ++ post)) :
    OpensAt results q' (pre ++ before) (behind ++ post) site (rest ++ post) where
  mem := hsites h.mem
  missing := h.missing
  behind_eq := by
    rw [h.behind_eq]
    simp
  exchange result := by
    rw [hshown, h.exchange]
    simp

theorem not_mem_labels_of_nodup {a b : Content} (h : (a.labels ++ b.labels).Nodup) :
    (site ∈ a.sites → site.place ∉ b.labels) ∧ (site ∈ b.sites → site.place ∉ a.labels) := by
  have hdisjoint := (List.nodup_append.1 h).2.2
  constructor
  · exact fun hsite hmem => hdisjoint _ (List.mem_map_of_mem hsite) _ hmem rfl
  · exact fun hsite hmem => hdisjoint _ hmem _ (List.mem_map_of_mem hsite) rfl

/-- Where a `$` is shown a call of the tree begins. -/
theorem exists_opensAt (hnodup : q.labels.Nodup)
    (h : q.shown results = before ++ ('$', some x) :: behind) :
    ∃ site rest, site.place = x ∧ OpensAt results q before behind site rest := by
  induction q generalizing before behind with
  | empty => simp [shown] at h
  | char c more ih =>
    obtain ⟨mid, rfl, hmore⟩ := exists_of_not_mem [(c, none)] h (by simp)
    obtain ⟨site, rest, hplace, hopens⟩ := ih hnodup hmore
    refine ⟨site, rest, hplace, ?_⟩
    have hlift := hopens.lift (char c more) [(c, none)] []
      (List.Subset.refl _) fun result => by simp [shown]
    simpa using hlift
  | group inner more ihInner ihMore =>
    rw [labels_group] at hnodup
    obtain ⟨hinner, hmore, -⟩ := List.nodup_append.1 hnodup
    obtain ⟨mid, rfl, hmid⟩ := exists_of_not_mem [('[', none)] h (by simp)
    rcases cases_append_cons hmid with ⟨mid', hin, rfl⟩ | ⟨mid', rfl, hout⟩
    · obtain ⟨site, rest, hplace, hopens⟩ := ihInner hinner hin
      refine ⟨site, _, hplace, hopens.lift _ _ _ (List.subset_append_left _ _) fun result => ?_⟩
      rw [shown, shown_update_of_not_mem ((not_mem_labels_of_nodup hnodup).1 hopens.mem)]
      rfl
    · obtain ⟨mid'', rfl, hbehind⟩ := exists_of_not_mem [(']', none)] hout (by simp)
      obtain ⟨site, rest, hplace, hopens⟩ := ihMore hmore hbehind
      refine ⟨site, rest, hplace, ?_⟩
      have hlift := hopens.lift (group inner more)
        (('[', none) :: (inner.shown results ++ [(']', none)])) []
        (List.subset_append_right _ _) fun result => by
          rw [shown, shown_update_of_not_mem ((not_mem_labels_of_nodup hnodup).2 hopens.mem)]
          simp
      simpa using hlift
  | call place stem inner more ihInner ihMore =>
    rw [labels_call] at hnodup
    obtain ⟨hplace, hboth⟩ := List.nodup_cons.1 hnodup
    obtain ⟨hinner, hmore, -⟩ := List.nodup_append.1 hboth
    rw [List.mem_append, not_or] at hplace
    have hinnerSites : inner.sites ⊆ (call place stem inner more).sites :=
      List.subset_cons_of_subset _ (List.subset_append_left _ _)
    have hmoreSites : more.sites ⊆ (call place stem inner more).sites :=
      List.subset_cons_of_subset _ (List.subset_append_right _ _)
    -- a call inside of this one or behind it is another one
    have hne : ∀ {site}, site ∈ inner.sites ∨ site ∈ more.sites → place ≠ site.place := by
      rintro site hsite rfl
      rcases hsite with hsite | hsite
      · exact hplace.1 (List.mem_map_of_mem hsite)
      · exact hplace.2 (List.mem_map_of_mem hsite)
    cases hres : results place with
    | some result =>
      rw [shown_call_of_some hres] at h
      obtain ⟨mid, rfl, hmid⟩ := exists_of_not_mem _ h (not_mem_plain _ _ _)
      obtain ⟨site, rest, hx, hopens⟩ := ihMore hmore hmid
      refine ⟨site, rest, hx, ?_⟩
      have hlift := hopens.lift _ (plain (Text.escape result)) [] hmoreSites
        fun result' => by
          rw [shown_call_of_some (by rwa [Function.update_of_ne (hne (.inr hopens.mem))])]
          simp
      simpa using hlift
    | none =>
      rw [shown_call_of_none hres] at h
      -- the `$` is that of the call, or one behind it
      rcases List.cons_eq_append_iff.1 h with ⟨rfl, hhead⟩ | ⟨before, rfl, hbehind⟩
      · obtain ⟨hstamp, rfl⟩ := List.cons.inj hhead
        obtain rfl : x = place := by simpa using hstamp
        refine ⟨⟨x, stem, inner⟩, more.shown results, rfl, List.mem_cons_self, hres, rfl,
          fun result => ?_⟩
        rw [shown_call_of_some (Function.update_self ..), shown_update_of_not_mem hplace.2]
        rfl
      · obtain ⟨mid, rfl, hmid⟩ := exists_of_not_mem _ hbehind (not_mem_plain _ _ _)
        obtain ⟨mid', rfl, hmid'⟩ := exists_of_not_mem [('[', none)] hmid (by simp)
        rcases cases_append_cons hmid' with ⟨mid'', hin, rfl⟩ | ⟨mid'', rfl, hout⟩
        · obtain ⟨site, rest, hx, hopens⟩ := ihInner hinner hin
          refine ⟨site, rest ++ (']', none) :: more.shown results, hx, ?_⟩
          have hlift := hopens.lift _ (('$', some place) :: (plain stem ++ [('[', none)]))
            ((']', none) :: more.shown results) hinnerSites
            fun result => by
              rw [shown_call_of_none (by rwa [Function.update_of_ne (hne (.inl hopens.mem))]),
                shown_update_of_not_mem ((not_mem_labels_of_nodup hboth).1 hopens.mem)]
              simp
          simpa using hlift
        · obtain ⟨mid'', rfl, hrest⟩ := exists_of_not_mem [(']', none)] hout (by simp)
          obtain ⟨site, rest, hx, hopens⟩ := ihMore hmore hrest
          refine ⟨site, rest, hx, ?_⟩
          have hlift := hopens.lift _ (('$', some place) ::
            (plain stem ++ ('[', none) :: (inner.shown results ++ [(']', none)]))) [] hmoreSites
            fun result => by
              rw [shown_call_of_none (by rwa [Function.update_of_ne (hne (.inr hopens.mem))]),
                shown_update_of_not_mem ((not_mem_labels_of_nodup hboth).2 hopens.mem)]
              simp
          simpa using hlift

/-! ### Brackets and pieces of what is shown -/

/-- Brackets match in what is shown, and it is not cut at a semicolon unless the tree is. -/
theorem Sound.passes (h : q.Sound names false)
    (hnames : ∀ name ∈ names, Worklist.Lettered name) (results : Nat → Option Text) {depth : Nat}
    (hsolid : depth = 0 → q.Solid) :
    Bracket.Passes depth ((q.shown results).map Prod.fst) := by
  induction q generalizing depth with
  | empty => exact .of_plain (by simp [shown])
  | char c rest ih =>
    obtain ⟨-, hbracket, hrest⟩ := h
    obtain ⟨hopen, hclose⟩ := hbracket.resolve_left Bool.false_ne_true
    rw [shown, List.map_cons]
    refine .append (t := [c]) (.of_plain fun c' hc' => ?_) (ih hrest fun hzero => (hsolid hzero).2)
    obtain rfl : c' = c := by simpa using hc'
    exact ⟨hopen, hclose, fun hzero => (hsolid hzero).1⟩
  | group inner rest ihInner ihRest =>
    have hpasses := (ihInner h.1 (show depth + 1 = 0 → _ from nofun)).brackets (ihRest h.2 hsolid)
    simpa [shown] using hpasses
  | call place stem inner rest ihInner ihRest =>
    obtain ⟨hname, hinner, hrest⟩ := h
    cases hres : results place with
    | some result =>
      rw [shown_call_of_some hres, List.map_append, map_fst_plain]
      refine .append (.of_plain fun c hc => ?_) (ihRest hrest hsolid)
      have hplain := Text.isMarker_of_mem_escape hc
      refine ⟨?_, ?_, fun _ => ?_⟩ <;> rintro rfl <;> cases hplain
    | none =>
      have hstem : Bracket.Passes depth ('$' :: stem) := by
        refine .of_plain fun c hc => ?_
        rcases List.mem_cons.1 hc with rfl | hc
        · exact ⟨by decide, by decide, fun _ => by decide⟩
        · have hplain := Apart.isMarker_of_isAlpha (isAlpha_of_mem_stem hnames hname hc)
          refine ⟨?_, ?_, fun _ => ?_⟩ <;> rintro rfl <;> cases hplain
      have hpasses := hstem.append
        ((ihInner hinner (show depth + 1 = 0 → _ from nofun)).brackets (ihRest hrest hsolid))
      rw [shown_call_of_none hres]
      simpa using hpasses

theorem Sound.balanced (h : q.Sound names false)
    (hnames : ∀ name ∈ names, Worklist.Lettered name) (results : Nat → Option Text) :
    Bracket.Balanced ((q.shown results).map Prod.fst) :=
  fun i _ rest hdepth =>
    (h.passes hnames results fun hzero => absurd hzero (by omega)).closing hdepth i rest

theorem intercalate_modifyHead {α : Type} (sep a : List α) {first : List α}
    (more : List (List α)) :
    sep.intercalate ((a ++ first) :: more) = a ++ sep.intercalate (first :: more) := by
  cases more with
  | nil => simp
  | cons b more => simp [List.intercalate_cons_cons]

/-- The pieces of the tree are shown with the semicolons between them. -/
theorem shown_eq_intercalate (q : Content) (results : Nat → Option Text) :
    q.shown results = [(';', none)].intercalate (q.pieces.map (shown results)) := by
  -- what goes in front of the first piece is shown in front of it
  have modify : ∀ {rest : Content} {f : Content → Content} {t : List Stamp},
      rest.shown results = [(';', none)].intercalate (rest.pieces.map (shown results)) →
      (∀ piece, (f piece).shown results = t ++ piece.shown results) →
      t ++ rest.shown results =
        [(';', none)].intercalate ((rest.pieces.modifyHead f).map (shown results)) := by
    intro rest f t hrest hf
    obtain ⟨first, more, hpieces⟩ := rest.exists_pieces_eq_cons
    rw [hpieces, List.map_cons] at hrest
    rw [hrest, hpieces, List.modifyHead_cons, List.map_cons, hf, intercalate_modifyHead]
  induction q with
  | empty => rfl
  | char c rest ih =>
    rw [pieces]
    split
    · next hc =>
      obtain ⟨first, more, hpieces⟩ := rest.exists_pieces_eq_cons
      rw [hpieces, List.map_cons] at ih
      rw [shown, ih, hpieces, List.map_cons, List.map_cons, List.intercalate_cons_cons, shown, hc]
      rfl
    · exact modify (f := char c) (t := [(c, none)]) ih fun piece => rfl
  | group inner rest _ ih =>
    have hgroup := modify (f := group inner)
      (t := ('[', none) :: (inner.shown results ++ [(']', none)])) ih
      fun piece => by simp [shown]
    rw [pieces, ← hgroup, shown]
    simp
  | call place stem inner rest _ ih => exact modify (f := call place stem inner) ih fun piece => rfl

/-- The spans of segments with one character between them, from a position on. -/
def spansFrom (i : Nat) : List (List Stamp) → List Span
  | [] => []
  | segment :: segments => ⟨i, i + segment.length⟩ :: spansFrom (i + segment.length + 1) segments

/-- Segments that pass are cut apart at the semicolons between them. -/
theorem piecesFrom_intercalate {segments : List (List Stamp)} (hne : segments ≠ [])
    (h : ∀ segment ∈ segments, Bracket.Passes 0 (segment.map Prod.fst)) (i : Nat)
    (done : List Span) :
    Bracket.piecesFrom i i 0 done (([(';', none)].intercalate segments).map Prod.fst) =
      done.reverse ++ spansFrom i segments := by
  induction segments generalizing i done with
  | nil => exact absurd rfl hne
  | cons segment segments ih =>
    have hsegment := h segment List.mem_cons_self
    cases segments with
    | nil =>
      have hpieces := hsegment.pieces i i done []
      rw [List.append_nil] at hpieces
      rw [List.intercalate_singleton, hpieces, Bracket.piecesFrom, List.reverse_cons,
        List.length_map]
      rfl
    | cons next segments =>
      have hmore := ih (List.cons_ne_nil _ _) (fun s hs => h s (List.mem_cons_of_mem _ hs))
        (i + segment.length + 1) (⟨i, i + segment.length⟩ :: done)
      rw [List.intercalate_cons_cons, List.map_append, List.map_append, List.append_assoc,
        hsegment.pieces, List.map_cons, List.map_nil, List.singleton_append, Bracket.piecesFrom,
        if_neg (by decide), if_neg (by decide), if_pos (by decide), List.length_map, hmore,
        List.reverse_cons, List.append_assoc]
      rfl

/-- Each span cuts its segment out of what the segments stand in. -/
theorem forall₂_spansFrom {stamps rest : List Stamp} {segments : List (List Stamp)}
    (hne : segments ≠ []) {i : Nat}
    (h : stamps.drop i = [(';', none)].intercalate segments ++ rest) (hi : i ≤ stamps.length) :
    List.Forall₂ (fun segment (s : Span) => s.cut stamps = segment ∧ s.stop ≤ stamps.length)
      segments (spansFrom i segments) := by
  induction segments generalizing i with
  | nil => exact absurd rfl hne
  | cons segment segments ih =>
    have hfirst : ∀ more, stamps.drop i = segment ++ more →
        (Span.mk i (i + segment.length)).cut stamps = segment ∧
          i + segment.length ≤ stamps.length := by
      intro more hdrop
      have hlen := congrArg List.length hdrop
      rw [List.length_drop, List.length_append] at hlen
      rw [Span.cut, hdrop, Nat.add_sub_cancel_left, List.take_left]
      exact ⟨rfl, by omega⟩
    cases segments with
    | nil =>
      rw [List.intercalate_singleton] at h
      exact .cons (hfirst rest h) .nil
    | cons next segments =>
      rw [List.intercalate_cons_cons, List.append_assoc, List.append_assoc] at h
      obtain ⟨hcut, hle⟩ := hfirst _ h
      have hmore : stamps.drop (i + segment.length + 1) =
          [(';', none)].intercalate (next :: segments) ++ rest := by
        rw [← List.drop_drop, ← List.drop_drop, h, List.drop_left]
        rfl
      refine .cons ⟨hcut, hle⟩ (ih (List.cons_ne_nil _ _) hmore ?_)
      have hlen := congrArg List.length h
      simp only [List.length_drop, List.length_append, List.length_cons] at hlen
      omega

/-! ### Blanks at the ends

A slot is trimmed before it is resolved, so what is resolved is what the tree shows but for blanks
at the ends. -/

/-- The tree shows the stamps, with nothing but blanks around them. -/
def Shows (q : Content) (results : Nat → Option Text) (stamps : List Stamp) : Prop :=
  ∃ before behind, (∀ s ∈ before, isBlank s.1 = true) ∧ (∀ s ∈ behind, isBlank s.1 = true) ∧
    q.shown results = before ++ (stamps ++ behind)

theorem shows_shown (q : Content) (results : Nat → Option Text) :
    q.Shows results (q.shown results) :=
  ⟨[], [], by simp, by simp, by simp⟩

/-- Where a `$` is shown a call begins that ends in the stamps too. -/
theorem Shows.exists_site (h : q.Shows results (before ++ ('$', some x) :: behind))
    (hnodup : q.labels.Nodup) :
    ∃ site ∈ q.sites, ∃ rest, site.place = x ∧ results x = none ∧
      behind = plain site.stem ++ ('[', none) ::
        (site.inner.shown results ++ (']', none) :: rest) ∧
      ∀ result, q.Shows (Function.update results x (some result))
        (before ++ (plain (Text.escape result) ++ rest)) := by
  obtain ⟨lead, tail, hlead, htail, hshown⟩ := h
  have hsplit : q.shown results = (lead ++ before) ++ ('$', some x) :: (behind ++ tail) := by
    rw [hshown]
    simp
  obtain ⟨site, rest, rfl, hopens⟩ := exists_opensAt hnodup hsplit
  -- the bracket that ends the call is no blank
  obtain ⟨rest, hbehind, rfl⟩ : ∃ rest', behind = plain site.stem ++ ('[', none) ::
      (site.inner.shown results ++ (']', none) :: rest') ∧ rest = rest' ++ tail := by
    have heq : behind ++ tail = (plain site.stem ++ ('[', none) :: site.inner.shown results) ++
        (']', none) :: rest := by
      rw [hopens.behind_eq]
      simp
    rcases cases_append_cons heq with ⟨mid, rfl, rfl⟩ | ⟨mid, -, hmid⟩
    · exact ⟨mid, by simp, rfl⟩
    · have hblank := htail (']', none) (hmid ▸ List.mem_append_right _ List.mem_cons_self)
      cases hblank
  refine ⟨site, hopens.mem, rest, rfl, hopens.missing, hbehind, fun result => ?_⟩
  refine ⟨lead, tail, hlead, htail, ?_⟩
  rw [hopens.exchange]
  simp

/-- Whether a tree shows but blanks. -/
def isBlankIn (results : Nat → Option Text) (q : Content) : Bool :=
  Text.isBlankText ((q.shown results).map Prod.fst)

/-- What trimming leaves of a span of stamps. -/
theorem shows_trimSpan {stamps : List Stamp} {s : Span} (hcut : s.cut stamps = q.shown results)
    (hs : s.stop ≤ stamps.length) :
    q.Shows results ((Text.trimSpan (stamps.map Prod.fst) s).cut stamps) ∧
      ((Text.trimSpan (stamps.map Prod.fst) s).cut stamps).map Prod.fst =
        Text.trim ((q.shown results).map Prod.fst) ∧
      (Text.trimSpan (stamps.map Prod.fst) s).isEmpty = q.isBlankIn results := by
  have hle : s.stop ≤ (stamps.map Prod.fst).length := by rwa [List.length_map]
  have hslice : Text.slice (stamps.map Prod.fst) s = (q.shown results).map Prod.fst := by
    rw [← hcut, Span.map_cut]
    rfl
  refine ⟨?_, ?_, ?_⟩
  · obtain ⟨lead, tail, hsplit, hlead, htail, htrim⟩ := Text.exists_trimSpan _ hle
    rw [hslice] at hsplit htrim
    generalize Text.trim ((q.shown results).map Prod.fst) = core at hsplit htrim
    -- the stamps fall apart as their characters do
    obtain ⟨before, more, hshown, rfl, hmore⟩ := List.map_eq_append_iff.1 hsplit
    obtain ⟨mid, behind, rfl, rfl, rfl⟩ := List.map_eq_append_iff.1 hmore
    have hmid := Span.cut_mid (hcut.trans hshown)
    rw [htrim, List.length_map, List.length_map, hmid]
    exact ⟨before, behind, fun s hs => hlead _ (List.mem_map_of_mem hs),
      fun s hs => htail _ (List.mem_map_of_mem hs), hshown⟩
  · rw [Span.map_cut, ← hslice]
    exact Text.slice_trimSpan hle
  · rw [Text.isEmpty_trimSpan hle, hslice]
    rfl

/-! ### Slots -/

/-- A list without its last element if that has a property. -/
def dropLastIf {α : Type} (p : α → Bool) (l : List α) : List α :=
  match l.getLast? with
  | some a => if p a then l.dropLast else l
  | none => l

theorem dropLastIf_map {α β : Type} (p : β → Bool) (f : α → β) (l : List α) :
    dropLastIf p (l.map f) = (dropLastIf (fun a => p (f a)) l).map f := by
  unfold dropLastIf
  rw [List.getLast?_map]
  cases l.getLast? with
  | none => rfl
  | some a =>
    simp only [Option.map_some]
    split
    · rw [List.map_dropLast]
    · rfl

theorem dropLastIf_congr {α : Type} {p p' : α → Bool} {l : List α} (h : ∀ a ∈ l, p a = p' a) :
    dropLastIf p l = dropLastIf p' l := by
  unfold dropLastIf
  cases hlast : l.getLast? with
  | none => rfl
  | some a => simp only [h a (List.mem_of_getLast? hlast)]

theorem dropLastIf_sublist {α : Type} (p : α → Bool) (l : List α) :
    (dropLastIf p l).Sublist l := by
  unfold dropLastIf
  split
  · split
    · exact List.dropLast_sublist l
    · exact .refl l
  · exact .refl l

theorem mem_of_mem_dropLastIf {α : Type} {p : α → Bool} {l : List α} {a : α}
    (h : a ∈ dropLastIf p l) : a ∈ l :=
  (dropLastIf_sublist p l).subset h

theorem dropLastIf_eq_self {α : Type} {p : α → Bool} {l : List α} (h : ∀ a ∈ l, p a = false) :
    dropLastIf p l = l := by
  unfold dropLastIf
  cases hlast : l.getLast? with
  | none => rfl
  | some a => simp [h a (List.mem_of_getLast? hlast)]

/-- A slot of a call and the piece of its tree: there is no span if the piece shows but blanks, or
else the span in which it is shown. -/
structure ShowsSlot (q : Content) (results : Nat → Option Text) (stamps : List Stamp)
    (slot : Option Span) : Prop where
  blank : q.isBlankIn results = slot.isNone
  shows : ∀ s ∈ slot, q.Shows results (s.cut stamps)
  trimmed : ∀ s ∈ slot,
    (s.cut stamps).map Prod.fst = Text.trim ((q.shown results).map Prod.fst)

/-- The slots of a call are those of the pieces of its tree, without the last one if it shows but
blanks. -/
theorem exists_slots (hsound : q.Sound names false)
    (hnames : ∀ name ∈ names, Worklist.Lettered name) {stamps : List Stamp} {n : Nat}
    (h : stamps.drop n = q.shown results ++ rest) (hn : n ≤ stamps.length) :
    ∃ parts : List (Content × Option Span),
      parts.map Prod.snd =
        Bracket.slots (stamps.map Prod.fst) ⟨n, n + (q.shown results).length⟩ ∧
      parts.map Prod.fst = dropLastIf (isBlankIn results) q.pieces ∧
      ∀ part ∈ parts, part.1.ShowsSlot results stamps part.2 := by
  have hsegments := q.shown_eq_intercalate results
  have hne : q.pieces.map (shown results) ≠ [] := by simpa using q.pieces_ne_nil
  have hcut := forall₂_spansFrom hne (hsegments ▸ h) hn
  obtain ⟨hlen, hpairs⟩ := List.forall₂_iff_zip.1 (List.forall₂_map_left_iff.1 hcut)
  -- the pieces of the text are the spans of the pieces of the tree
  have hpieces : Bracket.pieces (stamps.map Prod.fst) ⟨n, n + (q.shown results).length⟩ =
      spansFrom n (q.pieces.map (shown results)) := by
    have hslice : Text.slice (stamps.map Prod.fst) ⟨n, n + (q.shown results).length⟩ =
        (q.shown results).map Prod.fst := by
      have hdrop : (stamps.map Prod.fst).drop n =
          (q.shown results).map Prod.fst ++ rest.map Prod.fst := by
        rw [← List.map_drop, h, List.map_append]
      have := Text.slice_of_drop hdrop
      rwa [List.length_map] at this
    have hpasses : ∀ segment ∈ q.pieces.map (shown results),
        Bracket.Passes 0 (segment.map Prod.fst) := by
      intro segment hsegment
      obtain ⟨piece, hpiece, rfl⟩ := List.mem_map.1 hsegment
      obtain ⟨hpieceSound, hsolid⟩ := sound_solid_of_mem_pieces hsound hpiece
      exact hpieceSound.passes hnames results fun _ => hsolid
    rw [Bracket.pieces, hslice, hsegments, piecesFrom_intercalate hne hpasses]
    rfl
  generalize spansFrom n (q.pieces.map (shown results)) = spans at *
  have hspans : spans = (q.pieces.zip spans).map Prod.snd := (List.map_snd_zip hlen.ge).symm
  have hcontents : (q.pieces.zip spans).map Prod.fst = q.pieces := List.map_fst_zip hlen.le
  have htrim : ∀ pair ∈ q.pieces.zip spans, _ := fun pair hpair =>
    shows_trimSpan (hpairs hpair).1 (hpairs hpair).2
  generalize q.pieces.zip spans = pairs at hspans hcontents htrim
  -- the slot of each piece is what is left of its span
  let slotOf (pair : Content × Span) : Option Span :=
    if (Text.trimSpan (stamps.map Prod.fst) pair.2).isEmpty then none
    else some (Text.trimSpan (stamps.map Prod.fst) pair.2)
  refine ⟨(dropLastIf (fun pair => pair.1.isBlankIn results) pairs).map fun pair =>
    (pair.1, slotOf pair), ?_, ?_, ?_⟩
  · have hslots : ∀ spans : List Span, Bracket.dropEmptyLast spans =
        dropLastIf Span.isEmpty spans := by
      intro spans
      unfold Bracket.dropEmptyLast dropLastIf
      cases spans.getLast? <;> rfl
    rw [Bracket.slots, hpieces, hslots, hspans, dropLastIf_map, dropLastIf_map,
      dropLastIf_congr fun pair hpair => (htrim pair hpair).2.2, List.map_map, List.map_map,
      List.map_map]
    rfl
  · rw [List.map_map, ← hcontents, dropLastIf_map]
    rfl
  · intro part hpart
    obtain ⟨pair, hpair, rfl⟩ := List.mem_map.1 hpart
    obtain ⟨hshows, htext, hempty⟩ := htrim pair (mem_of_mem_dropLastIf hpair)
    have hslot : slotOf pair = if pair.1.isBlankIn results then none
        else some (Text.trimSpan (stamps.map Prod.fst) pair.2) := by
      rw [← hempty]
    cases hblank : pair.1.isBlankIn results with
    | true =>
      rw [hblank, if_pos rfl] at hslot
      exact ⟨by simp only [hslot, hblank, Option.isNone_none], by simp [hslot], by simp [hslot]⟩
    | false =>
      rw [hblank, if_neg Bool.false_ne_true] at hslot
      refine ⟨by simp only [hslot, hblank, Option.isNone_some], ?_, ?_⟩
      · intro s hs
        obtain rfl := Option.some.inj (hslot.symm.trans hs)
        exact hshows
      · intro s hs
        obtain rfl := Option.some.inj (hslot.symm.trans hs)
        exact htext

/-! ### Calls in the slots of a call -/

theorem mem_dropLastIf {α : Type} {p : α → Bool} {l : List α} {a : α} (ha : a ∈ l)
    (hp : p a = false) : a ∈ dropLastIf p l := by
  unfold dropLastIf
  cases hlast : l.getLast? with
  | none => exact ha
  | some b =>
    simp only
    split
    · next hb =>
      -- the element that is dropped is another one
      obtain ⟨init, rfl⟩ := List.getLast?_eq_some_iff.1 hlast
      rw [List.dropLast_concat]
      refine (List.mem_append.1 ha).resolve_right fun hmem => ?_
      rw [List.mem_singleton.1 hmem, hb] at hp
      cases hp
    · exact ha

theorem mem_intercalate_singleton {α : Type} {sep a : α} (hne : a ≠ sep) {segments : List (List α)} :
    a ∈ [sep].intercalate segments ↔ ∃ segment ∈ segments, a ∈ segment := by
  induction segments with
  | nil => simp
  | cons segment segments ih =>
    cases segments with
    | nil => simp
    | cons next more =>
      rw [List.intercalate_cons_cons, List.mem_append, List.mem_append, ih, List.mem_singleton]
      simp [hne]

/-- What is shown of a tree is shown of one of its pieces. -/
theorem mem_shown_iff_pieces :
    ('$', some x) ∈ q.shown results ↔ ∃ piece ∈ q.pieces, ('$', some x) ∈ piece.shown results := by
  rw [shown_eq_intercalate, mem_intercalate_singleton (by simp)]
  simp

/-- Blanks have no calls. -/
theorem not_mem_shown_of_isBlankIn (h : q.isBlankIn results = true) :
    ('$', some x) ∉ q.shown results := by
  intro hmem
  have hblank := List.all_eq_true.1 h '$' (List.mem_map.2 ⟨_, hmem, rfl⟩)
  cases hblank

theorem Shows.mem_iff {stamps : List Stamp} (h : q.Shows results stamps) :
    ('$', some x) ∈ q.shown results ↔ ('$', some x) ∈ stamps := by
  obtain ⟨lead, tail, hlead, htail, hshown⟩ := h
  rw [hshown, List.mem_append, List.mem_append]
  constructor
  · rintro (hmem | hmem | hmem)
    · cases hlead _ hmem
    · exact hmem
    · cases htail _ hmem
  · exact fun hmem => .inr (.inl hmem)

/-- The calls that are shown inside of a call are shown in its slots. -/
theorem mem_shown_iff_slots {stamps : List Stamp} {parts : List (Content × Option Span)}
    (hpieces : parts.map Prod.fst = dropLastIf (isBlankIn results) q.pieces)
    (hparts : ∀ part ∈ parts, part.1.ShowsSlot results stamps part.2) :
    ('$', some x) ∈ q.shown results ↔
      ∃ part ∈ parts, ∃ s ∈ part.2, ('$', some x) ∈ s.cut stamps := by
  rw [mem_shown_iff_pieces]
  constructor
  · rintro ⟨piece, hpiece, hmem⟩
    have hblank : piece.isBlankIn results = false :=
      Bool.eq_false_iff.2 fun hblank => not_mem_shown_of_isBlankIn hblank hmem
    have hkept := mem_dropLastIf (p := isBlankIn results) hpiece hblank
    rw [← hpieces] at hkept
    obtain ⟨part, hpart, rfl⟩ := List.mem_map.1 hkept
    have hslot := hparts part hpart
    obtain ⟨s, hs⟩ : ∃ s, part.2 = some s := by
      rw [← Option.isSome_iff_exists, ← Option.not_isNone, ← hslot.blank, hblank]
      rfl
    exact ⟨part, hpart, s, hs, (hslot.shows s hs).mem_iff.1 hmem⟩
  · rintro ⟨part, hpart, s, hs, hmem⟩
    have hpiece : part.1 ∈ q.pieces :=
      mem_of_mem_dropLastIf (hpieces ▸ List.mem_map_of_mem hpart)
    exact ⟨part.1, hpiece, ((hparts part hpart).shows s hs).mem_iff.2 hmem⟩

end Content

end Stencil
