import JackVm.Proofs.Limits
import JackVm.Proofs.Places

/-!
# Compiling one file

What a session does with a source file is a function of the file tree (`Does`): the session's
variables and log have no part in it. A source at a site has an effect, which is its result and
what becomes of its listing and of its output (`Effect`), and compiling it does just that
(`does_compileOne`). An effect shows at the listing and at the output only
(`Effect.Allowed.changed`).

Main statement: compiling a source file agrees with compiling its text in memory, and a source
that fails leaves no output (`compileOne_agrees`).
-/

namespace JackVm

/-! ## What actions do to a tree -/

namespace Session

variable {α β : Type} {t u w : FileTree}

/-- What an action gives, and the tree it leaves. -/
def endOf (action : StateT Session (StateM FileTree) α) (s : Session) (t : FileTree) :
    α × FileTree :=
  let r := (action.run s).run t
  (r.1.1, r.2)

/-- The action leads from the tree `t` to the value and the tree `u`, whatever the session. -/
def Does (action : StateT Session (StateM FileTree) α) (t : FileTree) (value : α)
    (u : FileTree) : Prop :=
  ∀ s, endOf action s t = (value, u)

namespace Does

theorem pure (a : α) (t : FileTree) :
    Does (Pure.pure a : StateT Session (StateM FileTree) α) t a t := fun _ => rfl

/-- What follows begins in the session and the tree that are left. -/
theorem bind {x : StateT Session (StateM FileTree) α}
    {f : α → StateT Session (StateM FileTree) β} {a : α} {b : β}
    (hx : Does x t a u) (hf : Does (f a) u b w) : Does (x >>= f) t b w := by
  intro s
  obtain ⟨hvalue, htree⟩ := Prod.mk.inj (hx s)
  have hnext := hf ((x.run s).run t).1.2
  rw [← hvalue, ← htree] at hnext
  exact hnext

theorem bind_ok {x : SessionM (StateM FileTree) α} {f : α → SessionM (StateM FileTree) β}
    {a : α} {v : Except Failure β} (hx : Does x.run t (.ok a) u) (hf : Does (f a).run u v w) :
    Does (x >>= f).run t v w := by
  rw [ExceptT.run_bind]
  exact hx.bind hf

theorem bind_error {x : SessionM (StateM FileTree) α} {f : α → SessionM (StateM FileTree) β}
    {failure : Failure} (hx : Does x.run t (.error failure) u) :
    Does (x >>= f).run t (.error failure) u := by
  rw [ExceptT.run_bind]
  exact hx.bind (pure _ u)

theorem throw (failure : Failure) (t : FileTree) :
    Does (MonadExcept.throw failure : SessionM (StateM FileTree) α).run t (.error failure) t :=
  fun _ => rfl

theorem note (rs : List Record) (t : FileTree) :
    Does (Session.note rs : SessionM (StateM FileTree) Unit).run t (.ok ()) t := fun _ => rfl

/-- A request to the file system does not concern the session. -/
theorem request {r : StateM FileTree α} {a : α} (h : r.run t = (a, u)) :
    Does (liftM r : SessionM (StateM FileTree) α).run t (.ok a) u := by
  intro s
  have hrun : endOf (liftM r : SessionM (StateM FileTree) α).run s t =
      (.ok (r.run t).1, (r.run t).2) := rfl
  rw [hrun, h]

theorem require_ok {r : StateM FileTree (Except FileFault α)} {a : α}
    {failure : FileFault → Failure} (h : r.run t = (.ok a, u)) :
    Does (Session.require r failure).run t (.ok a) u :=
  (request h).bind_ok (pure _ u)

theorem require_error {r : StateM FileTree (Except FileFault α)} {fault : FileFault}
    {failure : FileFault → Failure} (h : r.run t = (.error fault, u)) :
    Does (Session.require r failure).run t (.error (failure fault)) u :=
  (request h).bind_ok (throw _ u)

end Does

/-! ## Requests -/

theorem run_changeTree (change : FileTree → Except FileFault FileTree) (t : FileTree) :
    (changeTree change).run t =
      match change t with
      | .ok u => (.ok (), u)
      | .error fault => (.error fault, t) := rfl

theorem run_changeTree_ok {change : FileTree → Except FileFault FileTree}
    (h : change t = .ok u) : (changeTree change).run t = (.ok (), u) := by
  rw [run_changeTree, h]

theorem run_changeTree_error {change : FileTree → Except FileFault FileTree} {fault : FileFault}
    (h : change t = .error fault) : (changeTree change).run t = (.error fault, t) := by
  rw [run_changeTree, h]

end Session

/-! ## The effect of compiling a source -/

namespace FileTree

variable {t : FileTree}

/-- The tokens of a source file. -/
def tokens (t : FileTree) (path : String) : Except Failure (List Token) :=
  if Path.isSource path then
    match t.read path with
    | .error fault => .error (.file path (.unreadable fault))
    | .ok source => (scan source).mapError .lex
  else .error (.file path .notSource)

/-- A source that has tokens can be read. -/
theorem read_of_tokens {path : String} {tokens : List Token} (h : t.tokens path = .ok tokens) :
    ∃ source, t.read path = .ok source := by
  unfold FileTree.tokens at h
  split at h
  · cases hread : t.read path with
    | error fault => simp [hread] at h
    | ok source => exact ⟨source, rfl⟩
  · cases h

end FileTree

/-- What compiling a source comes to: its result, and what becomes of its listing and of its
output. -/
structure Effect where
  result : Except Failure String
  listing : FileTree.Change := .keep
  output : FileTree.Change := .keep

namespace Effect

/-- What becomes of the output of a compilation. -/
def fate (options : BuildOptions) (c : Compilation) : FileTree.Change :=
  match c.result with
  | .ok () => .write c.sink.text
  | .error _ => if options.keepPartial then .write c.sink.text else .erase

/-- The effect of compiling tokens to an output, which may be a directory. -/
def ofCode (options : BuildOptions) (path stem : String) (tokens : List Token)
    (noOutput : Bool) : Effect :=
  if noOutput then { result := .error (.file (Path.output path) (.noOutput .isDirectory)) }
  else
    let c := Compilation.ofTokens ⟨stem, options.runtime⟩ tokens {}
    { result := c.result.map fun _ => Path.output path, output := fate options c }

theorem listing_ofCode (options : BuildOptions) (path stem : String) (tokens : List Token)
    (noOutput : Bool) : (ofCode options path stem tokens noOutput).listing = .keep := by
  unfold ofCode
  split <;> rfl

theorem output_ofCode (options : BuildOptions) (path stem : String) (tokens : List Token)
    (noOutput : Bool) :
    (ofCode options path stem tokens noOutput).output = .keep ∨ noOutput = false := by
  cases noOutput with
  | true => exact .inl rfl
  | false => exact .inr rfl

theorem result_ofCode {options : BuildOptions} {path stem output : String} {tokens : List Token}
    {noOutput : Bool} (h : (ofCode options path stem tokens noOutput).result = .ok output) :
    output = Path.output path := by
  unfold ofCode at h
  split at h
  · cases h
  · simp only at h
    cases hresult : (Compilation.ofTokens ⟨stem, options.runtime⟩ tokens {}).result with
    | ok _ =>
        rw [hresult] at h
        exact (Except.ok.inj h).symm
    | error failure =>
        rw [hresult] at h
        cases h

/-- The effect of listing and compiling tokens. -/
def ofTokens (options : BuildOptions) (path stem : String) (tokens : List Token)
    (noListing noOutput : Bool) : Effect :=
  let code := ofCode options path stem tokens noOutput
  if options.listTokens then
    if noListing then
      { result := .error (.file (Path.listing path) (.noListing .isDirectory)) }
    else { code with listing := .write (Listing.text (tokens.map (·.toLexeme))) }
  else code

/-- The effect of compiling a source at a site. -/
def ofSource (options : BuildOptions) (path : String) (site : FileTree.Site) (t : FileTree) :
    Effect :=
  match t.tokens path with
  | .error failure => { result := .error failure }
  | .ok tokens =>
      ofTokens options path site.stem tokens (t.isDirectory site.listing) (t.isDirectory site.output)

/-- A source that compiles is compiled to its output. -/
theorem output_of_ok {options : BuildOptions} {path output : String} {site : FileTree.Site}
    {t : FileTree} (h : (ofSource options path site t).result = .ok output) :
    output = Path.output path := by
  unfold ofSource at h
  split at h
  · cases h
  · unfold ofTokens at h
    split at h
    · split at h
      · cases h
      · exact result_ofCode h
    · exact result_ofCode h

/-- The tree after the effect. -/
def on (e : Effect) (site : FileTree.Site) (t : FileTree) : FileTree :=
  (t.change site.listing e.listing).change site.output e.output

/-! ### Where an effect shows -/

/-- The effect changes no directory. -/
structure Allowed (e : Effect) (site : FileTree.Site) (t : FileTree) : Prop where
  listing : e.listing.Allowed t site.listing
  output : e.output.Allowed t site.output

section
variable {e : Effect} {site : FileTree.Site} {t u : FileTree} {l : Location}

theorem Allowed.alike (h : e.Allowed site t) (hu : FileTree.Alike t u) : e.Allowed site u where
  listing := h.listing.imp_right (hu.isDirectory_eq _).trans
  output := h.output.imp_right (hu.isDirectory_eq _).trans

theorem allowed_ofSource (options : BuildOptions) (path : String) (site : FileTree.Site)
    (t : FileTree) : (ofSource options path site t).Allowed site t := by
  unfold ofSource
  cases t.tokens path with
  | error failure => exact ⟨.inl rfl, .inl rfl⟩
  | ok tokens =>
      have houtput := output_ofCode options path site.stem tokens (t.isDirectory site.output)
      simp only [ofTokens]
      cases options.listTokens with
      | false => exact ⟨.inl (listing_ofCode ..), houtput⟩
      | true =>
          cases hd : t.isDirectory site.listing with
          | true => exact ⟨.inl rfl, .inl rfl⟩
          | false => exact ⟨.inr hd, houtput⟩

theorem Allowed.alike_on (h : e.Allowed site t) (ht : t.NoLinks) :
    FileTree.Alike t (e.on site t) := by
  have hlisted := FileTree.alike_change ht h.listing
  exact hlisted.trans (FileTree.alike_change hlisted.noLinks (h.alike hlisted).output)

theorem Allowed.node?_listing (h : e.Allowed site t) (ht : t.NoLinks) :
    (e.on site t).node? site.listing = e.listing.after (t.node? site.listing) := by
  have hlisted := FileTree.alike_change ht h.listing
  rw [on, FileTree.node?_change_ne (h.alike hlisted).output FileTree.Site.output_ne_listing.symm,
    FileTree.node?_change_self h.listing]

theorem Allowed.node?_output (h : e.Allowed site t) (ht : t.NoLinks) :
    (e.on site t).node? site.output = e.output.after (t.node? site.output) := by
  have hlisted := FileTree.alike_change ht h.listing
  rw [on, FileTree.node?_change_self (h.alike hlisted).output,
    FileTree.node?_change_ne h.listing FileTree.Site.output_ne_listing]

theorem Allowed.node?_of_ne (h : e.Allowed site t) (ht : t.NoLinks) (hlisting : l ≠ site.listing)
    (houtput : l ≠ site.output) : (e.on site t).node? l = t.node? l := by
  have hlisted := FileTree.alike_change ht h.listing
  rw [on, FileTree.node?_change_ne (h.alike hlisted).output houtput,
    FileTree.node?_change_ne h.listing hlisting]

/-- An effect shows where the listing or the output is changed. -/
theorem Allowed.changed (h : e.Allowed site t) (ht : t.NoLinks)
    (hl : (e.on site t).node? l ≠ t.node? l) :
    (l = site.output ∧ e.output ≠ .keep) ∨ (l = site.listing ∧ e.listing ≠ .keep) := by
  by_cases houtput : l = site.output
  · refine .inl ⟨houtput, fun hkeep => hl ?_⟩
    rw [houtput, h.node?_output ht, hkeep]
    rfl
  by_cases hlisting : l = site.listing
  · refine .inr ⟨hlisting, fun hkeep => hl ?_⟩
    rw [hlisting, h.node?_listing ht, hkeep]
    rfl
  · exact absurd (h.node?_of_ne ht hlisting houtput) hl

variable {path text : String}

theorem Allowed.read_listing (h : e.Allowed site t) (ht : t.NoLinks) (hs : t.SourceAt path site)
    (hfault : spotFault? path = none) (he : e.listing = .write text) :
    (e.on site t).read (Path.listing path) = .ok text := by
  have halike := h.alike_on ht
  refine (hs.listing.alike halike).read halike.noLinks (hs.spotFault?_listing hfault) ?_
  exact (h.node?_listing ht).trans (by rw [he]; rfl)

theorem Allowed.read_output (h : e.Allowed site t) (ht : t.NoLinks) (hs : t.SourceAt path site)
    (hfault : spotFault? path = none) (he : e.output = .write text) :
    (e.on site t).read (Path.output path) = .ok text := by
  have halike := h.alike_on ht
  refine (hs.output.alike halike).read halike.noLinks (hs.spotFault?_output hfault) ?_
  exact (h.node?_output ht).trans (by rw [he]; rfl)

theorem Allowed.read_erased (h : e.Allowed site t) (ht : t.NoLinks) (hs : t.SourceAt path site)
    (hfault : spotFault? path = none) (he : e.output = .erase) :
    (e.on site t).read (Path.output path) = .error .missing := by
  have halike := h.alike_on ht
  refine (hs.output.alike halike).read_missing halike.noLinks (hs.spotFault?_output hfault) ?_
  exact (h.node?_output ht).trans (by rw [he]; rfl)

end

end Effect

namespace Session

theorem run_read (path : String) (t : FileTree) :
    (FileSystem.read path : StateM FileTree (Except FileFault String)).run t =
      (t.read path, t) := rfl

theorem does_tokensOf (path : String) (t : FileTree) :
    Does (tokensOf path : SessionM (StateM FileTree) (List Token)).run t (t.tokens path) t := by
  rw [FileTree.tokens, tokensOf]
  by_cases hsource : Path.isSource path = true
  · simp only [hsource, Bool.not_true, Bool.false_eq_true, if_false, if_true]
    have hrequest := run_read path t
    cases hread : t.read path with
    | error fault =>
        rw [hread] at hrequest
        exact .bind_error (.require_error hrequest)
    | ok source =>
        rw [hread] at hrequest
        refine .bind_ok (.require_ok hrequest) ?_
        simp only
        cases scan source with
        | error e => exact .throw (.lex e) t
        | ok tokens => exact .bind_ok (.note _ t) (.pure (Except.ok tokens) t)
  · simp only [hsource]
    exact .bind_error (.throw _ t)

section
variable {t : FileTree} {options : BuildOptions} {path : String} {site : FileTree.Site}
  {tokens : List Token}

/-- A listing is written unless its place is a directory. -/
theorem does_writeListing (h : t.SourceAt path site) (ht : t.NoLinks)
    (hfault : spotFault? path = none) (hfree : t.isDirectory site.listing = false)
    (tokens : List Token) :
    Does (writeListing path tokens : SessionM (StateM FileTree) Unit).run t (.ok ())
      (t.change site.listing (.write (Listing.text (tokens.map (·.toLexeme))))) := by
  have hfault := h.spotFault?_listing hfault
  have hcreate := h.listing.write ht hfault hfree ""
  have hwrite := h.listing.write_again ht hfault hfree ""
    (Listing.text (tokens.map (·.toLexeme)))
  exact .bind_ok (.require_ok (run_changeTree_ok hcreate)) (.require_ok (run_changeTree_ok hwrite))

theorem does_writeListing_directory (h : t.SourceAt path site) (ht : t.NoLinks)
    (hfault : spotFault? path = none) (hd : t.isDirectory site.listing = true)
    (tokens : List Token) :
    Does (writeListing path tokens : SessionM (StateM FileTree) Unit).run t
      (.error (.file (Path.listing path) (.noListing .isDirectory))) t := by
  have hcreate := h.listing.write_directory ht (h.spotFault?_listing hfault) hd ""
  exact .bind_error (.require_error (run_changeTree_error hcreate))

theorem does_createOutput (h : t.SourceAt path site) (ht : t.NoLinks)
    (hfault : spotFault? path = none) (hfree : t.isDirectory site.output = false) :
    Does (createOutput (Path.output path) : SessionM (StateM FileTree) Unit).run t (.ok ())
      (t.change site.output (.write "")) := by
  exact .require_ok (run_changeTree_ok (h.output.write ht (h.spotFault?_output hfault) hfree ""))

theorem does_createOutput_directory (h : t.SourceAt path site) (ht : t.NoLinks)
    (hfault : spotFault? path = none) (hd : t.isDirectory site.output = true) :
    Does (createOutput (Path.output path) : SessionM (StateM FileTree) Unit).run t
      (.error (.file (Path.output path) (.noOutput .isDirectory))) t := by
  have hcreate := h.output.write_directory ht (h.spotFault?_output hfault) hd ""
  exact .require_error (run_changeTree_error hcreate)

/-- The code takes the place of the empty output; that of a source that fails is kept or
removed. -/
theorem does_compileTo (h : t.SourceAt path site) (ht : t.NoLinks)
    (hfault : spotFault? path = none) (hfree : t.isDirectory site.output = false)
    (options : BuildOptions) (className : String) (tokens : List Token) :
    let c := Compilation.ofTokens ⟨className, options.runtime⟩ tokens {}
    Does (compileTo options className (Path.output path) tokens :
        SessionM (StateM FileTree) Unit).run (t.change site.output (.write "")) c.result
      (t.change site.output (Effect.fate options c)) := by
  intro c
  have hfault := h.spotFault?_output hfault
  have hwrite := h.output.write_again ht hfault hfree "" c.sink.text
  have hremove := h.output.remove_written ht hfault hfree c.sink.text
  refine .bind_ok (a := ()) (fun _ => rfl) ?_
  refine .bind_ok (.request (run_changeTree_ok hwrite)) ?_
  rw [Effect.fate]
  change Does (ExceptT.run (match outcome c.result (.ok ()) with
      | .ok () => _
      | .error failure => _)) _ _ _
  cases hresult : c.result with
  | ok _ => exact .pure (Except.ok ()) _
  | error failure =>
      simp only [outcome]
      cases options.keepPartial with
      | true => exact .throw failure _
      | false =>
          refine .bind_ok (a := ()) ?_ (.throw failure _)
          exact .bind_ok (.request (run_changeTree_ok hremove)) (.note _ _)

theorem does_compileCode (h : t.SourceAt path site) (ht : t.NoLinks)
    (hfault : spotFault? path = none) (options : BuildOptions) (className : String)
    (tokens : List Token) :
    let e := Effect.ofCode options path className tokens (t.isDirectory site.output)
    Does (do
        createOutput (Path.output path)
        compileTo options className (Path.output path) tokens
        return Path.output path : SessionM (StateM FileTree) String).run t e.result
      (t.change site.output e.output) := by
  intro e
  cases hd : t.isDirectory site.output with
  | true =>
      simp only [e, Effect.ofCode, hd, if_true]
      exact .bind_error (does_createOutput_directory h ht hfault hd)
  | false =>
      simp only [e, Effect.ofCode, hd, Bool.false_eq_true, if_false]
      refine .bind_ok (does_createOutput h ht hfault hd) ?_
      have hcode := does_compileTo h ht hfault hd options className tokens
      cases hresult : (Compilation.ofTokens ⟨className, options.runtime⟩ tokens {}).result with
      | ok _ =>
          simp only [hresult] at hcode
          exact .bind_ok hcode (.pure (Except.ok _) _)
      | error failure =>
          simp only [hresult] at hcode
          exact .bind_error hcode

/-- A source at a site is compiled to its effect, whatever the session. -/
theorem does_compileOne (h : t.SourceAt path site) (ht : t.NoLinks) (options : BuildOptions) :
    let e := Effect.ofSource options path site t
    Does (compileOne options path : SessionM (StateM FileTree) String).run t e.result
      (e.on site t) := by
  intro e
  refine .bind_ok (.note _ t) ?_
  have htokens := does_tokensOf path t
  cases hread : t.tokens path with
  | error failure =>
      rw [hread] at htokens
      have he : e = { result := .error failure } := by simp [e, Effect.ofSource, hread]
      rw [he]
      exact .bind_error htokens
  | ok tokens =>
      rw [hread] at htokens
      obtain ⟨source, hsource⟩ := FileTree.read_of_tokens hread
      obtain ⟨l, content, hfind, -⟩ := FileTree.file_of_read hsource
      have hfault := h.names.spotFault?_of_find ht hfind
      have he : e = Effect.ofTokens options path site.stem tokens (t.isDirectory site.listing)
        (t.isDirectory site.output) := by simp [e, Effect.ofSource, hread]
      rw [he, h.stem?]
      refine .bind_ok htokens ?_
      cases hlist : options.listTokens with
      | false =>
          have hcode := does_compileCode h ht hfault options site.stem tokens
          simp only [Effect.ofTokens, Effect.on, hlist, Bool.false_eq_true, if_false,
            Effect.listing_ofCode]
          exact hcode
      | true =>
          cases hd : t.isDirectory site.listing with
          | true =>
              simp only [Effect.ofTokens, Effect.on, hlist, if_true]
              exact .bind_error (does_writeListing_directory h ht hfault hd tokens)
          | false =>
              have hlisted := does_writeListing h ht hfault hd tokens
              have hsame := FileTree.alike_change ht
                (c := .write (Listing.text (tokens.map (·.toLexeme)))) (.inr hd)
              have hcode := does_compileCode (h.alike hsame) hsame.noLinks hfault options
                site.stem tokens
              simp only [hsame.isDirectory_eq] at hcode
              simp only [Effect.ofTokens, Effect.on, hlist, Bool.false_eq_true, if_false, if_true]
              exact .bind_ok hlisted hcode

end

end Session

/-! ## In memory and in a tree -/

namespace Compilation

/-- Without a limit everything is taken. -/
theorem free_ofTokens (t : Target) (tokens : List Token) : (ofTokens t tokens {}).sink.Free := by
  let size := codeSize (ofTokens t tokens {}).sink.code
  have ho : Outlet.limit { limit := some size } = some size := rfl
  rcases ofTokens_limited ho t tokens with h | ⟨-, hcut⟩
  · exact h.1
  · exact absurd hcut.exceeds (Nat.lt_irrefl size)

theorem ofSource_of_scan {source : String} {tokens : List Token} (h : scan source = .ok tokens)
    (t : Target) (table : VariableTable) :
    (ofSource t table source {}).result = (ofTokens t tokens {}).result ∧
      (ofSource t table source {}).sink = (ofTokens t tokens {}).sink := by
  simp only [ofSource, h]
  refine ⟨result_flush ?_, sink_flush _⟩
  simp [(free_ofTokens t tokens).outlet_eq]

/-- Only scanning fails with a scanner's error. -/
theorem result_ofTokens_ne_lex (t : Target) (tokens : List Token) (outlet : Outlet)
    (e : ScanError) : (ofTokens t tokens outlet).result ≠ .error (.lex e) := by
  intro h
  rw [ofTokens, result_ofCursor] at h
  split at h
  · cases h
  · next fault k _ =>
      unfold Fault.report at h
      split at h <;> cases h

end Compilation

namespace Effect

/-- The effect of a source that can be scanned, with no directory in its way. -/
theorem ofSource_of_free {options : BuildOptions} {path : String} {site : FileTree.Site}
    {t : FileTree} {tokens : List Token} (htokens : t.tokens path = .ok tokens)
    (hlisting : t.isDirectory site.listing = false)
    (houtput : t.isDirectory site.output = false) :
    let e := ofSource options path site t
    let c := Compilation.ofTokens ⟨site.stem, options.runtime⟩ tokens {}
    e.result = (c.result.map fun _ => Path.output path) ∧ e.output = fate options c ∧
      e.listing = if options.listTokens then
        .write (Listing.text (tokens.map (·.toLexeme))) else .keep := by
  simp only [ofSource, htokens, hlisting, houtput, ofTokens, ofCode]
  cases options.listTokens with
  | true => exact ⟨rfl, rfl, rfl⟩
  | false => exact ⟨rfl, rfl, rfl⟩

end Effect

namespace Session

/-- Compiling a source file agrees with compiling its text in memory. Code that is right stands
in the output afterwards; a text that cannot be scanned leaves the tree as it is; a source that
breaks a rule has no output, or what was written of it when that is kept. The tokens are listed
when they are to be, whatever the result, and no other place changes. -/
theorem compileOne_agrees (options : BuildOptions) {tree : FileTree} (ht : tree.NoLinks)
    {path stem source : String} (hsource : Path.isSource path = true)
    (hstem : Path.stem? path = some stem) (hread : tree.read path = .ok source)
    (houtput : tree.kind? (Path.output path) ≠ some .directory)
    (hlisting : tree.kind? (Path.listing path) ≠ some .directory)
    (table : VariableTable) (session : Session) :
    let memory := Compilation.ofSource ⟨stem, options.runtime⟩ table source {}
    let r := endOf (compileOne options path).run session tree
    (memory.result = .ok () →
      r.1 = .ok (Path.output path) ∧ r.2.read (Path.output path) = .ok memory.sink.text) ∧
    (∀ e, memory.result = .error (.lex e) → r.1 = .error (.lex e) ∧ r.2 = tree) ∧
    (∀ cause line, memory.result = .error (.compile cause line) →
      r.1 = .error (.compile cause line) ∧
        r.2.read (Path.output path) =
          if options.keepPartial then .ok memory.sink.text else .error .missing) ∧
    (∀ tokens, options.listTokens = true → scan source = .ok tokens →
      r.2.read (Path.listing path) = .ok (Listing.text (tokens.map (·.toLexeme)))) ∧
    (∀ l, r.2.node? l ≠ tree.node? l →
      tree.fileSpot (Path.output path) = .ok l ∨
        options.listTokens = true ∧ tree.fileSpot (Path.listing path) = .ok l) := by
  intro memory r
  obtain ⟨place, content, hfind, hfile⟩ := FileTree.file_of_read hread
  obtain ⟨site, h⟩ := FileTree.sourceAt_of_file ht hsource hfind hfile
  obtain rfl : site.stem = stem := Option.some.inj (h.stem?.symm.trans hstem)
  have hfault := h.names.spotFault?_of_find ht hfind
  have hnoutput : tree.isDirectory site.output = false :=
    h.output.isDirectory_eq_false ht (h.spotFault?_output hfault) houtput
  have hnlisting : tree.isDirectory site.listing = false :=
    h.listing.isDirectory_eq_false ht (h.spotFault?_listing hfault) hlisting
  let e := Effect.ofSource options path site tree
  have hr : r = (e.result, e.on site tree) := does_compileOne h ht options session
  have ha : e.Allowed site tree := Effect.allowed_ofSource options path site tree
  have htokens : tree.tokens path = (scan source).mapError .lex := by
    simp [FileTree.tokens, hsource, hread]
  cases hscan : scan source with
  | error err =>
      rw [hscan] at htokens
      have he : e = { result := .error (.lex err) } := by
        simp [e, Effect.ofSource, htokens, Except.mapError]
      have hmemory : memory.result = .error (.lex err) := by
        simp [memory, Compilation.ofSource, hscan]
      rw [hr, hmemory, he]
      refine ⟨?_, ?_, ?_, ?_, fun l hne => absurd rfl hne⟩
      · intro hok
        cases hok
      · intro _ herr
        cases herr
        exact ⟨rfl, rfl⟩
      · intro _ _ herr
        cases herr
      · intro _ _ hok
        cases hok
  | ok tokens =>
      rw [hscan] at htokens
      let c := Compilation.ofTokens ⟨site.stem, options.runtime⟩ tokens {}
      obtain ⟨hresult, hsink⟩ : memory.result = c.result ∧ memory.sink = c.sink :=
        Compilation.ofSource_of_scan hscan _ table
      obtain ⟨heresult, heoutput, helisting⟩ :
          e.result = (c.result.map fun _ => Path.output path) ∧ e.output = Effect.fate options c ∧
            e.listing = if options.listTokens then _ else _ :=
        Effect.ofSource_of_free htokens hnlisting hnoutput
      rw [hr, hresult, hsink]
      refine ⟨fun hok => ⟨?_, ?_⟩, fun err herr => ?_, fun cause line herr => ⟨?_, ?_⟩, ?_, ?_⟩
      · rw [heresult, hok]
        rfl
      · exact ha.read_output ht h hfault (by rw [heoutput, Effect.fate, hok])
      · exact absurd herr (Compilation.result_ofTokens_ne_lex _ _ _ err)
      · rw [heresult, herr]
        rfl
      · rw [Effect.fate, herr] at heoutput
        cases hkeep : options.keepPartial with
        | true => exact ha.read_output ht h hfault (by rw [heoutput, hkeep]; rfl)
        | false => exact ha.read_erased ht h hfault (by rw [heoutput, hkeep]; rfl)
      · intro _ hlist hok
        cases hok
        exact ha.read_listing ht h hfault (by rw [helisting, if_pos hlist])
      · intro l hl
        rcases ha.changed ht hl with ⟨rfl, -⟩ | ⟨rfl, hkeep⟩
        · exact .inl (h.output.fileSpot ht (h.spotFault?_output hfault) hnoutput)
        · have hlist : options.listTokens = true := by
            by_contra hno
            exact hkeep (helisting.trans (if_neg hno))
          exact .inr ⟨hlist, h.listing.fileSpot ht (h.spotFault?_listing hfault) hnlisting⟩

/-- A source that uses a variable it does not declare. -/
def undeclaredSource : String := "class A { function int f() { return x; } }"

/-- A tree with that source and an output from before. -/
def staleTree : FileTree where
  entries := [(["home", "A.jack"], .file undeclaredSource.toUTF8),
    (["home", "A.vm"], .file "function A.f 0\npush constant 0\nreturn\n".toUTF8)]

/-- The output from before is gone when the source fails, and its tokens are listed. -/
theorem compileOne_agrees_staleTree :
    let r := endOf (compileOne { listTokens := true } "A.jack").run {} staleTree
    r.1 = .error (.compile (.static (.undefined "x")) 1) ∧
      r.2.read (Path.output "A.jack") = .error .missing ∧
      ∀ tokens, scan undeclaredSource = .ok tokens →
        r.2.read (Path.listing "A.jack") = .ok (Listing.text (tokens.map (·.toLexeme))) := by
  have ht : staleTree.NoLinks := FileTree.noLinks_of_entries (by simp [staleTree])
  have hstem : Path.stem? "A.jack" = some "A" := by decide +kernel
  have hread : staleTree.read "A.jack" = .ok undeclaredSource := by decide +kernel
  obtain ⟨-, -, hfails, hlists, -⟩ :=
    compileOne_agrees { listTokens := true } ht (by decide +kernel) hstem hread
      (by decide +kernel) (by decide +kernel) {} {}
  have hfailure : (Compilation.ofSource ⟨"A", {}⟩ {} undeclaredSource {}).result =
      .error (.compile (.static (.undefined "x")) 1) := by
    rw [Compilation.ofSource_eq]
    decide +kernel
  obtain ⟨hresult, houtput⟩ := hfails _ _ hfailure
  exact ⟨hresult, houtput, fun tokens hscan => hlists tokens rfl hscan⟩

end Session

end JackVm
