import Jailkit.Tools.Mirror

/-!
`create_parent_path` in a jail that mirrors the real system: what it finds and what it makes
is at each name the way that the real system has there.
-/
namespace Jailkit.Tools

open JkLib Raising
open Fs (ValidName Grows Walks DirsTo start isAbsolute components)

/-- In the midst of a path: the names in `done` lead to `x` in the jail, through `j` symlinks,
and those that are left lead on to `l` on the real system, through `k`. -/
structure Stage (C : Loc) (s : World) (l : Loc) (ret : Text) (done left : List Text) (x : Loc)
    (j k : Nat) : Prop where
  mirrors : Mirrors C s
  placed : Placed C s.fs done ret x j
  valid : ∀ c ∈ done ++ left, ValidName c
  walks : Walks s.fs.entry Mirrorable k x left l

section

variable {umask : Nat} {C x l : Loc} {s s' : World} {name ret : Text} {done left : List Text}
  {j k : Nat} (hne : C ≠ []) (hC : ∀ c ∈ C, ValidName c)

theorem stage_valid (h : Stage C s l ret done left x j k) : ∀ c ∈ x, ValidName c := by
  apply walks_valid h.placed.walks
  · simp
  · exact fun c hc => (h.valid c (List.mem_append_left left hc)).2.2.2

theorem stage_same (h : Stage C s l ret done left x j k) (hfs : s'.fs = s.fs)
    (hcache : CacheRight s') : Stage C s' l ret done left x j k := by
  refine ⟨mirrors_same h.mirrors hfs hcache, ?_, h.valid, ?_⟩
  · rw [hfs]
    exact h.placed
  · rw [hfs]
    exact h.walks

theorem stage_next {ret' : Text} {x' : Loc} {i : Nat} (h : Stage C s l ret done (name :: left) x j k)
    (htext : ret' = joinPath (C ++ x') ∨ ret' = joinPath (C ++ x') ++ ['/'])
    (hdirs : DirsTo s.fs.entry (C ++ x'))
    (hstep : Walks (jailed C s.fs) Mirrorable i x [name] x') :
    ∃ k', k = i + k' ∧ Stage C s l ret' (done ++ [name]) left x' (j + i) k' := by
  have hall : Walks s.fs.entry Mirrorable k x ([name] ++ left) l := h.walks
  obtain ⟨k', hk, hrest⟩ := Fs.walks_rest (walks_mirrored h.mirrors hstep) hall
  have hvalid : ∀ c ∈ done ++ [name] ++ left, ValidName c := by
    rw [List.append_assoc]
    exact h.valid
  exact ⟨k', hk, h.mirrors, ⟨htext, hdirs, Fs.walks_append h.placed.walks hstep⟩, hvalid, hrest⟩

/-- Where a name of the jail leads that is followed once. -/
def LeadsOnce (x : Loc) (name : Text) : Entry → Loc → Prop
  | .dir, x' => x' = x ++ [name]
  | .symlink t, x' => t ≠ [] ∧ Mirrorable x t ∧ x' = lexical x t
  | .file _, _ => False

theorem walks_leadsOnce {e : Entry} {x' : Loc} (hname : ValidName name)
    (hx : ∀ c ∈ x, ValidName c) (he : s.fs.entry (C ++ x ++ [name]) = some e)
    (h : LeadsOnce x name e x') (hdirs : DirsTo s.fs.entry (C ++ x))
    (hdirs' : DirsTo s.fs.entry (C ++ x')) :
    ∃ i, Walks (jailed C s.fs) Mirrorable i x [name] x' := by
  have hto := dirsTo_jailed hdirs
  have hto' := dirsTo_jailed hdirs'
  have hcur := hto x (List.prefix_refl x)
  have hend := hto' x' (List.prefix_refl x')
  rw [List.append_assoc] at he
  cases e with
  | dir =>
      have hx' : x' = x ++ [name] := h
      subst hx'
      exact ⟨0, .down (Fs.named_of_valid hname) hcur (.here hend)⟩
  | symlink t =>
      obtain ⟨ht, hok, hx'⟩ := h
      subst hx'
      refine ⟨1, .follow (Fs.named_of_valid hname) hcur he ht hok ?_⟩
      rw [List.append_nil]
      exact walks_target hto hx hok.1 hto'
  | file ino => exact h.elim

/-- Names that are directories are passed over. -/
theorem resolveLoop_dirs {M : Prog.Machine Call Res World} {fails : Exn → Prop}
    {E : Exn → World → Prop} (hM : Looking M fails) (hE : ∀ e s', fails e → E e s')
    (include_file : Bool) (chroot : Text) (base ns rest : List Text)
    (hvalid : ∀ c ∈ base ++ ns, ValidName c) (s : World) (hcache : CacheRight s)
    (hdirs : DirsTo s.fs.entry (base ++ ns)) {Q : Text → World → Prop}
    (hQ : ∀ s', s'.fs = s.fs → CacheRight s' → Holds M (fun _ _ => True)
      (resolveLoop include_file chroot (joinPath (base ++ ns)) rest) Q E s') :
    Holds M (fun _ _ => True) (resolveLoop include_file chroot (joinPath base) (ns ++ rest)) Q E
      s := by
  induction ns generalizing base s with
  | nil =>
      have hend := hQ s rfl hcache
      rwa [List.append_nil] at hend
  | cons c ns ih =>
      have hassoc : base ++ c :: ns = base ++ [c] ++ ns := by simp
      have hbase : ∀ c ∈ base, ValidName c := fun c' hc' => hvalid c' (List.mem_append_left _ hc')
      have hc : ValidName c := hvalid c (by simp)
      have hpre : base ++ [c] <+: base ++ c :: ns := by
        rw [hassoc]
        exact List.prefix_append _ _
      have hloc := locate_dirs hbase hc (Fs.dirsTo_prefix hdirs (List.prefix_append _ _))
      rw [List.cons_append, resolveLoop, osPathJoin_joinPath hbase hc]
      apply holds_bind
      refine cachedlstat_holds hM _ hcache hloc (hdirs _ hpre) ?_ hE
      intro sb s₁ hshows hfs hcache₁
      rw [hassoc] at hvalid hdirs hQ
      rw [if_neg fun h => shows_dir hshows h]
      apply ih (base ++ [c]) hvalid s₁ hcache₁
      · rw [hfs]
        exact hdirs
      · intro s' hs' hcache'
        exact hQ s' (hs'.trans hfs) hcache'

theorem split_holds {M : Prog.Machine Call Res World} {G : World → Call → Prop}
    {E : Exn → World → Prop} {path : Text} (habs : isAbsolute path = true)
    {Q : List Text → World → Prop} (hQ : Q (names path) s) : Holds M G (split path) Q E s := by
  rw [split, splitPath_absolute habs]
  exact holds_pure _ hQ

include hne hC in
/-- `resolve_realpath` of a name in a directory that it reaches through no symlink. -/
theorem resolveRealpath_ends {e : Entry} (hname : ValidName name) (hx : ∀ c ∈ x, ValidName c)
    (hcache : CacheRight s) (hdirs : DirsTo s.fs.entry (C ++ x))
    (he : s.fs.entry (C ++ x ++ [name]) = some e)
    (hkind : e = .dir ∨ ∃ t, e = .symlink t ∧ t ≠ [] ∧ Mirrorable x t)
    {Q : Text → World → Prop}
    (hQ : ∀ x' s', LeadsOnce x name e x' → DirsTo s.fs.entry (C ++ x') → s'.fs = s.fs →
      CacheRight s' → Q (joinPath (C ++ x') ++ ['/']) s') :
    Ends umask (joinPath C) (resolveRealpath (joinPath (C ++ x ++ [name])) (joinPath C) true) Q s := by
  have hCx := valid_append hC hx
  have hall : ∀ c ∈ C ++ x ++ [name], ValidName c := valid_snoc hCx hname
  have hslash : ∀ x', (∀ c ∈ x', ValidName c) →
      osPathJoin (joinPath (C ++ x')) [] = joinPath (C ++ x') ++ ['/'] :=
    fun x' hx' => osPathJoin_joinPath_nil (valid_append hC hx') (by simp [hne])
  rw [resolveRealpath, if_neg (joinPath_ne_root hall (by simp))]
  apply holds_bind
  apply split_holds (isAbsolute_joinPath _)
  rw [names_joinPath hall]
  simp only [if_true]
  apply holds_bind
  apply resolveLoop_dirs mirror_looking (fun _ _ h => h.elim) true _ [] (C ++ x) [name] hCx s hcache hdirs
  intro s₁ hfs hcache₁
  rw [List.nil_append, resolveLoop, osPathJoin_joinPath hCx hname]
  have hloc := locate_dirs hCx hname hdirs
  rw [← hfs] at he hloc
  apply holds_bind
  apply cachedlstat_ends _ hcache₁ hloc he
  intro sb s₂ hshows hfs₂ hcache₂
  rw [← hfs₂] at he hloc
  have hsame : s₂.fs = s.fs := hfs₂.trans hfs
  cases hkind with
  | inl hdir =>
      subst hdir
      have hdirs' : DirsTo s.fs.entry (C ++ (x ++ [name])) := by
        rw [← List.append_assoc]
        exact Fs.dirsTo_snoc hdirs (by rwa [hsame] at he)
      have hx' : ∀ c ∈ x ++ [name], ValidName c := valid_snoc hx hname
      rw [if_neg fun h => shows_dir hshows h, resolveLoop]
      have hend := hQ (x ++ [name]) s₂ rfl hdirs' hsame hcache₂
      rw [← hslash _ hx', ← List.append_assoc] at hend
      exact hend
  | inr hlink =>
      obtain ⟨t, rfl, ht, hok⟩ := hlink
      have hformat : sb.format = .lnk := hshows.2.mpr ⟨t, rfl⟩
      have hland : landing (joinPath C) (joinPath (C ++ x ++ [name])) t =
          joinPath (C ++ lexical x t) := by
        rw [landing_joinPath hne hC hx hname, landed_mirror hC hx hok.1]
      have hx' : ∀ c ∈ lexical x t, ValidName c := lexical_valid hx
      rw [if_pos hformat]
      apply holds_bind
      apply readlink_ends _ hloc he
      intro hsafe
      have hdirs' : DirsTo s.fs.entry (C ++ lexical x t) := by
        have hland' : DirsTo s₂.fs.entry (names (landing (joinPath C) _ t)) := hsafe
        rw [hland, names_joinPath (valid_append hC hx'), hsame] at hland'
        exact hland'
      apply holds_bind
      cases t with
      | nil => exact absurd rfl ht
      | cons c t =>
          rw [follow, hland, if_neg (by simp [pointsOutside_below hne])]
          have hend := hQ (lexical x (c :: t)) s₂ ⟨ht, hok, rfl⟩ hdirs' hsame hcache₂
          rw [← hslash _ hx'] at hend
          exact hend

/-- What exists for the kernel at a name has an entry there. -/
theorem entry_of_lookup {path : Text} {loc : Loc} (hloc : s.fs.locate false path = some loc)
    (h : (s.fs.lookup true path).isSome) : ∃ e, s.fs.entry loc = some e := by
  obtain ⟨e, he⟩ := Option.isSome_iff_exists.mp h
  obtain ⟨l', hl', he'⟩ := Option.bind_eq_some_iff.mp he
  cases hentry : s.fs.entry loc with
  | some e => exact ⟨e, rfl⟩
  | none =>
      have hunfollowed := Fs.locate_unfollow hl' fun l₀ t hl₀ => by
        rw [hloc] at hl₀
        cases hl₀
        simp [hentry]
      rw [hloc] at hunfollowed
      cases hunfollowed
      rw [hentry] at he'
      cases he'

include hne in
theorem osPathJoin_placed (h : Stage C s l ret done (name :: left) x j k)
    (hC : ∀ c ∈ C, ValidName c) : osPathJoin ret name = joinPath (C ++ x ++ [name]) := by
  have hname : ValidName name := h.valid name (by simp)
  have hCx := valid_append hC (stage_valid h)
  cases h.placed.text with
  | inl htext => rw [htext, osPathJoin_joinPath hCx hname]
  | inr htext => rw [htext, osPathJoin_joinPath_slash (by simp [hne]) hname]

include hne hC in
theorem followExisting_ends (done left : List Text) (ret : Text) (x : Loc) (j k : Nat) (s : World)
    (h : Stage C s l ret done left x j k) {Q : Text × List Text × List Text → World → Prop}
    (hQ : ∀ ret' done' left' x' j' k' s', Stage C s' l ret' done' left' x' j' k' →
      done' ++ left' = done ++ left → j' + k' = j + k → s'.fs = s.fs →
      Q (ret', done', left') s') :
    Ends umask (joinPath C) (followExisting (joinPath C) ret done left) Q s := by
  induction left generalizing done ret x j k s with
  | nil => exact hQ ret done [] x j k s h rfl rfl rfl
  | cons name left ih =>
      have hstop : ∀ s', s'.fs = s.fs → CacheRight s' → Q (ret, done, name :: left) s' :=
        fun s' hfs hcache => hQ ret done _ x j k s' (stage_same h hfs hcache) rfl rfl hfs
      have hname : ValidName name := h.valid name (by simp)
      have hx := stage_valid h
      have hCx := valid_append hC hx
      have hloc := locate_dirs hCx hname h.placed.dirs
      rw [followExisting, osPathJoin_placed hne h hC]
      apply holds_bind
      apply exists_ends
      split
      next hexists =>
        obtain ⟨e, he⟩ := entry_of_lookup hloc hexists
        have hreal : s.fs.entry (x ++ [name]) = some e := by
          apply h.mirrors.mirrored
          rwa [jailed, ← List.append_assoc]
        have hkind : e = .dir ∨ ∃ t, e = .symlink t ∧ t ≠ [] ∧ Mirrorable x t := by
          have hhead := Fs.walks_head (Fs.named_of_valid hname) h.walks
          simpa [hreal] using hhead
        apply holds_bind
        apply resolveRealpath_ends hne hC hname hx h.mirrors.cache h.placed.dirs he hkind
        intro x' s₁ hleads hdirs hfs hcache
        apply holds_bind
        apply exists_ends
        split
        next =>
          obtain ⟨i, hstep⟩ := walks_leadsOnce hname hx he hleads h.placed.dirs hdirs
          obtain ⟨k', hk, hnext⟩ := stage_next h (Or.inr rfl) hdirs hstep
          apply ih (done ++ [name]) _ x' (j + i) k' s₁ (stage_same hnext hfs hcache)
          intro ret' done' left' x'' j' k'' s' hstage hnames hcount hfs'
          apply hQ ret' done' left' x'' j' k'' s' hstage
          · simpa using hnames
          · omega
          · exact hfs'.trans hfs
        next => exact hstop s₁ hfs hcache
      next => exact hstop s rfl h.mirrors.cache

theorem stage_grows (h : Stage C s l ret done left x j k) (hm : Mirrors C s')
    (hfs : Grows s.fs s'.fs) : Stage C s' l ret done left x j k :=
  ⟨hm, placed_grows h.placed hfs, h.valid, Fs.walks_mono h.walks hfs.entry fun _ _ hok => hok⟩

def SameSeen (s s' : World) : Prop := Fs.SameEntries s.fs s'.fs ∧ s'.statcache = s.statcache

theorem sets_ends {path : Text} {loc : Loc} {f : Attrs → Attrs} {r : Except Exn Unit}
    (hloc : s.fs.locate true path = some loc) (hdir : s.fs.entry loc = some .dir)
    (h : acted s ENOENT (s.fs.setAttrs path f) = (r, s')) :
    ends (fun _ s' => SameSeen s s') (fun _ _ => False) r s' := by
  obtain ⟨fs', hset, hsame⟩ := setAttrs_dir hloc hdir f
  rw [hset] at h
  cases h
  exact ⟨hsame, rfl⟩

theorem sameSeen_trans {s'' : World} (h : SameSeen s s') (h' : SameSeen s' s'') : SameSeen s s'' :=
  ⟨⟨h'.1.1.trans h.1.1, fun x => (h'.1.2 x).trans (h.1.2 x)⟩, h'.2.trans h.2⟩

theorem locate_sameSeen {follow : Bool} {path : Text} {loc : Loc}
    (hloc : s.fs.locate follow path = some loc) (h : SameSeen s s') :
    s'.fs.locate follow path = some loc :=
  Fs.locate_keepsWays (Fs.keepsWays_of_grows (Fs.grows_same h.1)) hloc (h.1.2 loc)

theorem copyTimeAndPermissions_ends {chroot origpath jailpath : Text} {buf : StatBuf} {loc : Loc}
    (allow_suid copy_ownership : Bool) (horig : statPath s.fs true origpath = some buf)
    (hloc : s.fs.locate true jailpath = some loc) (hdir : s.fs.entry loc = some .dir) :
    Ends umask chroot (copyTimeAndPermissions origpath jailpath allow_suid copy_ownership)
      (fun _ s' => SameSeen s s') s := by
  have hstat : Ends umask chroot (stat origpath) (fun b s' => b = buf ∧ s' = s) s := by
    refine ⟨trivial, fun r s' hM => ?_⟩
    obtain ⟨heq, -⟩ := hM
    rw [execute, horig] at heq
    cases heq
    exact ⟨rfl, rfl⟩
  rw [copyTimeAndPermissions]
  apply holds_bind
  refine holds_mono hstat ?_ fun _ _ hE => hE
  intro sbuf s₁ hs₁
  obtain ⟨rfl, rfl⟩ := hs₁
  have hutime : Ends umask chroot (utime jailpath sbuf.attrs.atime sbuf.attrs.mtime)
      (fun _ s' => SameSeen s₁ s') s₁ := ⟨trivial, fun _ _ hM => sets_ends hloc hdir hM.1⟩
  apply holds_bind
  refine holds_mono hutime ?_ fun _ _ hE => hE
  intro _ s₂ hs₂
  have hloc₂ := locate_sameSeen hloc hs₂
  have hdir₂ := (hs₂.1.2 loc).trans hdir
  have hchown : Ends umask chroot (chownIf copy_ownership jailpath sbuf.attrs)
      (fun _ s' => SameSeen s₂ s') s₂ := by
    rw [chownIf]
    split
    · exact ⟨trivial, fun _ _ hM => sets_ends hloc₂ hdir₂ hM.1⟩
    · exact holds_pure () ⟨⟨rfl, fun _ => rfl⟩, rfl⟩
  apply holds_bind
  refine holds_mono hchown ?_ fun _ _ hE => hE
  intro _ s₃ hs₃
  have hchmod : ∀ mode, Ends umask chroot (chmod jailpath mode) (fun _ s' => SameSeen s₃ s') s₃ :=
    fun mode => ⟨trivial, fun _ _ hM =>
      sets_ends (locate_sameSeen hloc₂ hs₃) ((hs₃.1.2 loc).trans hdir₂) hM.1⟩
  refine holds_mono (hchmod _) ?_ fun _ _ hE => hE
  exact fun _ s₄ hs₄ => sameSeen_trans (sameSeen_trans hs₂ hs₃) hs₄

theorem catchOs_ends {α : Type} {chroot : Text} {p handler : Py α} {Q : α → World → Prop}
    (h : Ends umask chroot p Q s) : Ends umask chroot (catchOs p handler) Q s := by
  apply holds_bind
  apply holds_attempt
  exact holds_mono h (fun _ _ hQ => holds_pure _ hQ) fun _ _ hE => hE.elim

theorem copyParentPermissions_ends {chroot origpath jailpath : Text} {buf : StatBuf} {loc : Loc}
    (o : ParentOptions) (horig : statPath s.fs true origpath = some buf)
    (hloc : s.fs.locate true jailpath = some loc) (hdir : s.fs.entry loc = some .dir) :
    Ends umask chroot (copyParentPermissions o origpath jailpath)
      (fun _ s' => SameSeen s s') s := by
  rw [copyParentPermissions]
  split
  · exact catchOs_ends (copyTimeAndPermissions_ends _ _ horig hloc hdir)
  · exact holds_pure () ⟨⟨rfl, fun _ => rfl⟩, rfl⟩

theorem locate_orig (h : Stage C s l ret done (name :: left) x j k) (hj : j ≤ Fs.maxSymlinks) :
    s.fs.locate false (joinPath (done ++ [name])) = some (x ++ [name]) := by
  have hvalid : ∀ c ∈ done ++ [name], ValidName c := by
    intro c hc
    apply h.valid
    cases List.mem_append.mp hc with
    | inl hdone => exact List.mem_append_left _ hdone
    | inr hname =>
        rw [List.mem_singleton.mp hname]
        simp
  have hpath : components (joinPath (done ++ [name])) = ([] :: done) ++ [name] :=
    components_joinPath hvalid (by simp)
  exact Fs.locate_last (isAbsolute_joinPath _) hpath (Fs.named_of_valid (hvalid name (by simp)))
    (.stay (Or.inl rfl) (walks_mirrored h.mirrors h.placed.walks)) hj

theorem lookOrig_ends (chroot : Text) (h : Stage C s l ret done (name :: left) x j k)
    (hj : j ≤ Fs.maxSymlinks) :
    Ends umask chroot
      (catchOs (some <$> cachedlstat .parent (joinPath (done ++ [name]))) (pure none))
      (fun r s' => ∃ sb e, r = some sb ∧ s'.fs.entry (x ++ [name]) = some e ∧ Shows sb e ∧
        s'.fs = s.fs ∧ CacheRight s') s := by
  have hname : ValidName name := h.valid name (by simp)
  obtain ⟨e, he⟩ : ∃ e, s.fs.entry (x ++ [name]) = some e := by
    cases Fs.walks_head (Fs.named_of_valid hname) h.walks with
    | inl hdir => exact ⟨.dir, hdir⟩
    | inr hlink =>
        obtain ⟨t, hlink, -⟩ := hlink
        exact ⟨.symlink t, hlink⟩
  apply catchOs_ends
  apply holds_bind
  apply cachedlstat_ends .parent h.mirrors.cache (locate_orig h hj) he
  intro sb s' hshows hfs hcache
  rw [← hfs] at he
  exact holds_pure _ ⟨sb, e, rfl, he, hshows, hfs, hcache⟩

theorem locate_placed (h : Stage C s l ret (done ++ [name]) left x j k)
    (hj : j ≤ Fs.maxSymlinks) : s.fs.locate true (joinPath (done ++ [name])) = some x := by
  have hvalid : ∀ c ∈ done ++ [name], ValidName c :=
    fun c hc => h.valid c (List.mem_append_left left hc)
  have hall : Walks s.fs.entry Mirrorable j [] (components (joinPath (done ++ [name]))) x := by
    rw [components_joinPath hvalid (by simp)]
    exact .stay (Or.inl rfl) (walks_mirrored h.mirrors h.placed.walks)
  exact Fs.locate_walks (isAbsolute_joinPath _) hall hj

/-- What a call of `create_parent_path` for a symlink's target is relied on for: the path
leads to its directory through fewer than `n` symlinks. -/
def MakesTarget (umask : Nat) (C : Loc) (n : Nat) (recur : Text → Py (Option Text)) : Prop :=
  ∀ path s k l, k < n → k ≤ Fs.maxSymlinks → Mirrors C s → isAbsolute path = true →
    Walks s.fs.entry Mirrorable k [] (names path) l →
    Ends umask (joinPath C) (recur path) (fun r s' => ∃ ret, r = some ret ∧
      Stage C s' l ret (names path) [] l k 0 ∧ Grows s.fs s'.fs) s

/-- Names have been made, for which some of the `k₀` symlinks have been passed. -/
def MadeNext (C : Loc) (l : Loc) (done left : List Text) (j₀ k₀ : Nat) (s : World)
    (r : Option Text) (s' : World) : Prop :=
  ∃ ret x j k, r = some ret ∧ Stage C s' l ret done left x j k ∧ j + k = j₀ + k₀ ∧ k ≤ k₀ ∧
    Grows s.fs s'.fs

theorem stage_start {path : List Text} (hm : Mirrors C s) (hpath : ∀ c ∈ path, ValidName c)
    (hway : Walks s.fs.entry Mirrorable k [] path l) :
    Stage C s l (joinPath C) [] path [] 0 k := by
  have hroot : jailed C s.fs [] = some .dir := by
    rw [jailed, List.append_nil]
    exact hm.dirs C (List.prefix_refl C)
  refine ⟨hm, ⟨Or.inl ?_, ?_, .here hroot⟩, hpath, hway⟩
  · rw [List.append_nil]
  · rw [List.append_nil]
    exact hm.dirs

include hC

theorem createDir_ends (o : ParentOptions) (h : Stage C s l ret done (name :: left) x j k)
    (hj : j + k ≤ Fs.maxSymlinks) (he : s.fs.entry (x ++ [name]) = some .dir) :
    Ends umask (joinPath C) (do
      mkdir (joinPath (C ++ x ++ [name])) 0o755
      copyParentPermissions o (joinPath (done ++ [name])) (joinPath (C ++ x ++ [name]))
      pure (some (joinPath (C ++ x ++ [name])))) (MadeNext C l (done ++ [name]) left j k s) s := by
  have hname : ValidName name := h.valid name (by simp)
  have hCx := valid_append hC (stage_valid h)
  have hloc := locate_dirs hCx hname h.placed.dirs
  have hj' : j ≤ Fs.maxSymlinks := by omega
  apply holds_bind
  apply mkdir_ends 0o755 (joinPath_last _ hname) hloc
  intro fs' hadds
  have hgrows := Fs.grows_adds hadds
  rw [List.append_assoc] at hadds
  have hm := mirrors_adds h.mirrors hadds he
  have h₁ : Stage C { s with fs := fs' } l ret done (name :: left) x j k := stage_grows h hm hgrows
  have hnew : fs'.entry (C ++ (x ++ [name])) = some .dir := by rw [hadds.2.2, if_pos rfl]
  have hdirs : DirsTo fs'.entry (C ++ (x ++ [name])) := by
    rw [← List.append_assoc]
    exact Fs.dirsTo_snoc h₁.placed.dirs (by rwa [List.append_assoc])
  have hstep : Walks (jailed C fs') Mirrorable 0 x [name] (x ++ [name]) :=
    .down (Fs.named_of_valid hname) (dirsTo_jailed h₁.placed.dirs x (List.prefix_refl x)) (.here hnew)
  obtain ⟨k', hk, hnext⟩ := stage_next h₁ (Or.inl rfl) hdirs hstep
  have horig := locate_placed hnext (by omega)
  obtain ⟨buf, hbuf, -⟩ := shows_statOf (Fs.walks_end (walks_mirrored hm hnext.placed.walks))
  have hstat : statPath fs' true (joinPath (done ++ [name])) = some buf := by
    rw [statPath, horig]
    exact hbuf
  have hjail : fs'.locate true (joinPath (C ++ (x ++ [name]))) = some (C ++ (x ++ [name])) :=
    locate_dirs_follow (by simp) (valid_append hC (stage_valid hnext)) hdirs
  rw [List.append_assoc]
  apply holds_bind
  refine holds_mono (copyParentPermissions_ends o hstat hjail hnew) ?_ fun _ _ hE => hE
  intro _ s₂ hs₂
  have hgrows₂ := Fs.grows_same hs₂.1
  have hlast := stage_grows hnext (mirrors_sameEntries hm hs₂.1 hs₂.2) hgrows₂
  exact holds_pure _ ⟨_, _, _, k', rfl, hlast, by omega, by omega, Fs.grows_trans hgrows hgrows₂⟩

/-- A symlink is made, and its target by a call of the same function. -/
theorem createLink_ends {recur : Text → Py (Option Text)} {n : Nat}
    (hrecur : MakesTarget umask C n recur) (h : Stage C s l ret done (name :: left) x j k)
    (hk : k ≤ n) (hj : j + k ≤ Fs.maxSymlinks) {path t : Text} (ht : t ≠ []) (hok : Mirrorable x t)
    (he : s.fs.entry (x ++ [name]) = some (.symlink t)) (habs : isAbsolute path = true)
    (hpath : names path = lexical x t) :
    Ends umask (joinPath C) (do
      symlink t (joinPath (C ++ x ++ [name]))
      recur path) (MadeNext C l (done ++ [name]) left j k s) s := by
  have hname : ValidName name := h.valid name (by simp)
  have hx := stage_valid h
  have hnamed : ∀ c ∈ x, Fs.Named c := fun c hc => Fs.named_of_valid (hx c hc)
  have hCx := valid_append hC hx
  have hloc := locate_dirs hCx hname h.placed.dirs
  apply holds_bind
  apply symlink_ends ht hloc
  intro fs' hadds
  have hgrows := Fs.grows_adds hadds
  rw [List.append_assoc] at hadds
  have hm := mirrors_adds h.mirrors hadds he
  have h₁ : Stage C { s with fs := fs' } l ret done (name :: left) x j k := stage_grows h hm hgrows
  have hdirs := dirsTo_jailed h₁.placed.dirs
  -- what the real system has behind the symlink
  obtain ⟨i, d, hi, htarget⟩ :=
    Fs.walks_link (Fs.named_of_valid hname) (hgrows.entry _ _ he) h₁.walks
  have hreal := (walks_lexical (Fs.dirsTo_mono hdirs hm.mirrored) hnamed hok.1).mp htarget
  rw [← hpath] at hreal
  refine holds_mono (hrecur path _ i d (by omega) (by omega) hm habs hreal) ?_ fun _ _ hE => hE
  intro r s₂ hr
  obtain ⟨ret', rfl, hstage, hgrows₂⟩ := hr
  have h₂ := stage_grows h₁ hstage.mirrors hgrows₂
  have hdirs₂ := dirsTo_jailed h₂.placed.dirs
  have hlink : jailed C s₂.fs (x ++ [name]) = some (.symlink t) := by
    apply hgrows₂.entry
    exact (hadds.2.2 _).trans (if_pos rfl)
  have hmade := hstage.placed.walks
  rw [hpath, ← walks_lexical hdirs₂ hnamed hok.1] at hmade
  have hstep : Walks (jailed C s₂.fs) Mirrorable (i + 1) x [name] d := by
    refine .follow (Fs.named_of_valid hname) (hdirs₂ x (List.prefix_refl x)) hlink ht hok ?_
    rwa [List.append_nil]
  obtain ⟨k', hk', hnext⟩ := stage_next h₂ hstage.placed.text hstage.placed.dirs hstep
  exact ⟨ret', d, j + (i + 1), k', rfl, hnext, by omega, by omega,
    Fs.grows_trans hgrows hgrows₂⟩

include hne

theorem createParent_ends {recur : Text → Py (Option Text)} {n : Nat}
    (hrecur : MakesTarget umask C n recur) (o : ParentOptions)
    (h : Stage C s l ret done (name :: left) x j k) (hk : k ≤ n) (hj : j + k ≤ Fs.maxSymlinks)
    {sb : StatBuf} {e : Entry} (he : s.fs.entry (x ++ [name]) = some e) (hshows : Shows sb e) :
    Ends umask (joinPath C) (createParent recur (joinPath C) o (joinPath (done ++ [name]))
      (joinPath (C ++ x ++ [name])) sb) (MadeNext C l (done ++ [name]) left j k s) s := by
  have hname : ValidName name := h.valid name (by simp)
  have hx := stage_valid h
  have hCx := valid_append hC hx
  rw [createParent]
  cases Fs.walks_head (Fs.named_of_valid hname) h.walks with
  | inl hdir =>
      rw [hdir] at he
      cases he
      rw [hshows.1.mpr rfl]
      exact createDir_ends hC o h hj hdir
  | inr hlink =>
      obtain ⟨t, hlink, ht, hok⟩ := hlink
      rw [hlink] at he
      cases he
      rw [hshows.2.mpr ⟨t, rfl⟩]
      apply holds_bind
      apply readlink_ends .parent (locate_orig h (by omega)) hlink
      intro _
      have htarget : ∀ path, isAbsolute path = true → names path = lexical x t →
          Ends umask (joinPath C) (do
            symlink t (joinPath (C ++ x ++ [name]))
            recur path) (MadeNext C l (done ++ [name]) left j k s) s :=
        fun path habs hpath => createLink_ends hC hrecur h hk hj ht hok hlink habs hpath
      cases t with
      | nil => exact absurd rfl ht
      | cons c t =>
          dsimp only
          by_cases hc : c = '/'
          · have habs : isAbsolute (c :: t) = true := decide_eq_true (congrArg some hc)
            have hstart : start x (c :: t) = [] := if_pos habs
            have hpath : names (c :: t) = lexical x (c :: t) := by rw [lexical, hstart, names]
            rw [if_pos hc]
            exact htarget (c :: t) habs hpath
          · have hrel : isAbsolute (c :: t) = false :=
              decide_eq_false fun h => hc (Option.some.inj h)
            have hlex : ∀ c' ∈ lexical x (c :: t), ValidName c' := lexical_valid hx
            have hdrop : (joinPath (C ++ lexical x (c :: t))).drop (joinPath C).length =
                joinPath (lexical x (c :: t)) := by
              rw [joinPath_append hne, List.drop_left, joinPath_slashed (hok.2 hrel)]
            rw [if_neg hc, dirname_joinPath hCx hname,
              normpath_relative hne hC hx hrel, landed_mirror hC hx hok.1, pointsOutside_below hne, hdrop]
            simp only [Bool.false_eq_true, if_false]
            exact htarget _ (isAbsolute_joinPath _) (names_joinPath hlex)

theorem createMissing_ends {recur : Text → Py (Option Text)} {n : Nat}
    (hrecur : MakesTarget umask C n recur) (o : ParentOptions) (done left : List Text) (ret : Text)
    (x : Loc) (j k : Nat) (s : World) (h : Stage C s l ret done left x j k) (hk : k ≤ n)
    (hj : j + k ≤ Fs.maxSymlinks) :
    Ends umask (joinPath C) (createMissing recur (joinPath C) o (some ret) done left)
      (MadeNext C l (done ++ left) [] j k s) s := by
  induction left generalizing done ret x j k s with
  | nil =>
      rw [createMissing, List.append_nil]
      exact holds_pure _ ⟨ret, x, j, k, rfl, h, rfl, Nat.le_refl k, Fs.grows_refl s.fs⟩
  | cons name left ih =>
      rw [createMissing]
      apply holds_bind
      refine holds_mono (lookOrig_ends _ h (by omega)) ?_ fun _ _ hE => hE
      intro r s₁ hr
      obtain ⟨sb, e, rfl, he, hshows, hfs, hcache⟩ := hr
      have h₁ := stage_same h hfs hcache
      rw [osPathJoin_placed hne h hC]
      apply holds_bind
      refine holds_mono (createParent_ends hne hC hrecur o h₁ hk hj he hshows) ?_ fun _ _ hE => hE
      intro r s₂ hr
      obtain ⟨ret', x', j', k', rfl, hstage, hcount, hle, hgrows⟩ := hr
      rw [hfs] at hgrows
      have hk' : k' ≤ n := hle.trans hk
      refine holds_mono (ih (done ++ [name]) ret' x' j' k' s₂ hstage hk' (by omega)) ?_
        fun _ _ hE => hE
      intro r s₃ hr
      obtain ⟨ret'', x'', j'', k'', hret, hlast, hcount', hle', hgrows'⟩ := hr
      rw [List.append_assoc] at hlast
      exact ⟨ret'', x'', j'', k'', hret, hlast, by omega, by omega, Fs.grows_trans hgrows hgrows'⟩

theorem createParentPath_ends (n : Nat) (o : ParentOptions) :
    MakesTarget umask C n fun path => createParentPath n (joinPath C) path o := by
  induction n with
  | zero =>
      intro path s k l hk
      cases hk
  | succ n ih =>
      intro path s k l hk hbound hm habs hway
      have hstart := stage_start hm (names_valid path) hway
      dsimp only
      rw [createParentPath]
      apply holds_bind
      apply split_holds habs
      apply holds_bind
      apply followExisting_ends hne hC [] (names path) (joinPath C) [] 0 k s hstart
      intro ret done left x j k' s₁ hstage hnames hcount hfs
      refine holds_mono (createMissing_ends hne hC ih o done left ret x j k' s₁ hstage (by omega)
        (by omega)) ?_ fun _ _ hE => hE
      intro r s₂ hr
      obtain ⟨ret', x', j', k'', rfl, hlast, hcount', -, hgrows⟩ := hr
      rw [hfs] at hgrows
      rw [hnames, List.nil_append] at hlast
      have hend := hlast.walks
      cases hend with
      | here _ =>
          have hj : j' = k := by omega
          subst hj
          exact ⟨ret', rfl, hlast, hgrows⟩

/-- No run of which each step is safe makes what is there. -/
theorem createMissing_present {recur : Text → Py (Option Text)} (o : ParentOptions)
    (h : Stage C s l ret done (name :: left) x j k) (hj : j ≤ Fs.maxSymlinks)
    (hthere : (jailed C s.fs (x ++ [name])).isSome) {Q : Option Text → World → Prop} :
    Ends umask (joinPath C) (createMissing recur (joinPath C) o (some ret) done (name :: left))
      Q s := by
  have hname : ValidName name := h.valid name (by simp)
  have hloc := locate_dirs (valid_append hC (stage_valid h)) hname h.placed.dirs
  rw [createMissing]
  apply holds_bind
  refine holds_mono (lookOrig_ends _ h hj) ?_ fun _ _ hE => hE
  intro r s₁ hr
  obtain ⟨sb, e, rfl, he, hshows, hfs, hcache⟩ := hr
  have h₁ := stage_same h hfs hcache
  have hthere₁ : s₁.fs.entry (C ++ x ++ [name]) ≠ none := by
    rw [hfs, List.append_assoc]
    exact Option.isSome_iff_ne_none.mp hthere
  rw [← hfs] at hloc
  rw [osPathJoin_placed hne h hC]
  apply holds_bind
  rw [createParent]
  cases Fs.walks_head (Fs.named_of_valid hname) h₁.walks with
  | inl hdir =>
      rw [hdir] at he
      cases he
      rw [hshows.1.mpr rfl]
      apply holds_bind
      apply mkdir_ends 0o755 (joinPath_last _ hname) hloc
      exact fun fs' hadds => absurd hadds.1 hthere₁
  | inr hlink =>
      obtain ⟨t, hlink, ht, -⟩ := hlink
      rw [hlink] at he
      cases he
      rw [hshows.2.mpr ⟨t, rfl⟩]
      apply holds_bind
      apply readlink_ends .parent (locate_orig h₁ hj) hlink
      intro _
      apply holds_bind
      apply symlink_ends ht hloc
      exact fun fs' hadds => absurd hadds.1 hthere₁

/-- A path that the jail has is found, and nothing is made. -/
theorem createParentPath_finds (n : Nat) (o : ParentOptions) {path : Text} (hn : 0 < n)
    (hk : k ≤ Fs.maxSymlinks) (hm : Mirrors C s) (habs : isAbsolute path = true)
    (hway : Walks (jailed C s.fs) Mirrorable k [] (names path) l) :
    Ends umask (joinPath C) (createParentPath n (joinPath C) path o)
      (fun r s' => (∃ ret, r = some ret) ∧ s'.fs = s.fs) s := by
  cases n with
  | zero => cases hn
  | succ n =>
      have hstart := stage_start hm (names_valid path) (walks_mirrored hm hway)
      rw [createParentPath]
      apply holds_bind
      apply split_holds habs
      apply holds_bind
      apply followExisting_ends hne hC [] (names path) (joinPath C) [] 0 k s hstart
      intro ret done left x j k' s₁ hstage hnames hcount hfs
      cases left with
      | nil =>
          dsimp only
          rw [createMissing]
          exact holds_pure _ ⟨⟨ret, rfl⟩, hfs⟩
      | cons name left =>
          have hname : ValidName name := hstage.valid name (by simp)
          rw [List.nil_append] at hnames
          rw [← hnames, ← hfs] at hway
          obtain ⟨i, -, hrest⟩ := Fs.walks_rest hstage.placed.walks hway
          apply createMissing_present hne hC o hstage (by omega)
          cases Fs.walks_head (Fs.named_of_valid hname) hrest with
          | inl hdir => rw [hdir]; rfl
          | inr hlink =>
              obtain ⟨t, hlink, -⟩ := hlink
              rw [hlink]
              rfl

end

end Jailkit.Tools
