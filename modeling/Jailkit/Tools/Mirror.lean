import Jailkit.JkLib.Targets
import Jailkit.Tools.Copy
import Jailkit.Tools.Execute

/-!
What the jail has in common with the real system while `create_parent_path` makes paths in
it. An entry of the jail is the entry that the real system has at the same place, so that a
way through the jail is the way through the real system.
-/
namespace Jailkit.Tools

open JkLib Raising
open Fs (ValidName Grows Walks DirsTo start isAbsolute components)

/-- What the code asks of a symlink in the directory `x`: `..` stands in front of all names
of its target and does not go above the root, and a relative target is not the root itself,
which would be passed on as an empty path. -/
def Mirrorable (x : Loc) (target : Text) : Prop :=
  UpFirst x target ∧ (isAbsolute target = false → lexical x target ≠ [])

instance (x : Loc) (target : Text) : Decidable (Mirrorable x target) :=
  inferInstanceAs (Decidable (_ ∧ (_ → _)))

/-- The path names the directory `l`, through symlinks that can be mirrored. -/
structure NamesDir (fs : Fs) (path : Text) (l : Loc) : Prop where
  absolute : isAbsolute path = true
  down : ['.', '.'] ∉ components path
  walks : ∃ n, n ≤ Fs.maxSymlinks ∧ Walks fs.entry Mirrorable n [] (components path) l

/-- The steps on which the code relies. A symlink of the jail is followed to a path that goes
through directories only, and what is made is not there yet. -/
def MirrorSafe (chroot : Text) (s : World) : (c : Call) → Res c → Prop
  | .readlink (.walk _) ret, .ok realpath =>
      DirsTo s.fs.entry (names (landing chroot ret realpath))
  | .mkdir path _, _ | .symlink _ path, _ => s.fs.lookup false path = none
  | _, _ => True

/-- One step of a run in which each call succeeds that can and the code gets what it relies
on. -/
def MirrorStep (umask : Nat) (chroot : Text) : Prog.Machine Call Res World :=
  fun s c r s' => execute umask s c = (r, s') ∧ MirrorSafe chroot s c r

/-- In every such run a value is returned that meets `Q`. -/
abbrev Ends {α : Type} (umask : Nat) (chroot : Text) (p : Py α) (Q : α → World → Prop)
    (s : World) : Prop :=
  Holds (MirrorStep umask chroot) (fun _ _ => True) p Q (fun _ _ => False) s

def Shows (buf : StatBuf) (e : Entry) : Prop :=
  (buf.format = .dir ↔ e = .dir) ∧ (buf.format = .lnk ↔ ∃ t, e = .symlink t)

def CacheRight (s : World) : Prop :=
  ∀ path buf, s.statcache path = some buf →
    ∃ l e, s.fs.locate false path = some l ∧ s.fs.entry l = some e ∧ Shows buf e

/-- What stands at a location of the jail. -/
def jailed (C : Loc) (fs : Fs) (x : Loc) : Option Entry := fs.entry (C ++ x)

/-- The jail has nothing that the real system does not have. -/
structure Mirrors (C : Loc) (s : World) : Prop where
  dirs : DirsTo s.fs.entry C
  mirrored : ∀ x e, jailed C s.fs x = some e → s.fs.entry x = some e
  cache : CacheRight s

/-- A path of the jail at which the names have been made, with the `n` symlinks among them. -/
structure Placed (C : Loc) (fs : Fs) (done : List Text) (ret : Text) (x : Loc) (n : Nat) :
    Prop where
  text : ret = joinPath (C ++ x) ∨ ret = joinPath (C ++ x) ++ ['/']
  dirs : DirsTo fs.entry (C ++ x)
  walks : Walks (jailed C fs) Mirrorable n [] done x

/-- A machine that says of what is there what is so, or raises one of these errors. -/
structure Looking (M : Prog.Machine Call Res World) (fails : Exn → Prop) : Prop where
  cacheGet {use : Use} {path : Text} {s s' : World} {r : Option StatBuf} :
    M s (.cacheGet use path) r s' → r = s.statcache path ∧ s' = s
  cacheSet {path : Text} {buf : StatBuf} {s s' : World} {r : Unit} : M s (.cacheSet path buf) r s' →
    s' = { s with statcache := fun x => if x = path then some buf else s.statcache x }
  lstat {use : Use} {path : Text} {buf : StatBuf} {s s' : World} {r : Except Exn StatBuf} :
    statPath s.fs false path = some buf → M s (.lstat use path) r s' →
      s' = s ∧ (r = .ok buf ∨ ∃ e, r = .error e ∧ fails e)
  readlink {use : Use} {path t : Text} {s s' : World} {r : Except Exn Text} :
    s.fs.lookup false path = some (.symlink t) → M s (.readlink use path) r s' →
      s' = s ∧ (r = .ok t ∨ ∃ e, r = .error e ∧ fails e)

section

variable {α : Type} {umask n : Nat} {chroot : Text} {C x : Loc} {s s' : World} {fs fs' : Fs}

theorem shows_statOf {loc : Loc} {e : Entry} (h : fs.entry loc = some e) :
    ∃ buf, statOf fs loc = some buf ∧ Shows buf e := by
  cases e with
  | dir => exact ⟨_, by rw [statOf, h], by simp [Shows]⟩
  | symlink t => exact ⟨_, by rw [statOf, h], by simp [Shows]⟩
  | file ino =>
      refine ⟨_, by rw [statOf, h], ?_⟩
      cases hk : (fs.inode ino).kind with
      | reg | chr | blk | other => simp [Shows, Format.ofKind]

theorem shows_dir {buf : StatBuf} (h : Shows buf .dir) : buf.format ≠ .lnk := by
  intro hlink
  obtain ⟨t, ht⟩ := h.2.mp hlink
  cases ht

theorem cacheRight_set {path : Text} {buf : StatBuf} {l : Loc} {e : Entry} (h : CacheRight s)
    (hl : s.fs.locate false path = some l) (he : s.fs.entry l = some e) (hshows : Shows buf e) :
    CacheRight { s with statcache := fun x => if x = path then some buf else s.statcache x } := by
  intro path' buf' hbuf'
  dsimp only at hbuf'
  split at hbuf'
  next heq =>
    cases hbuf'
    rw [heq]
    exact ⟨l, e, hl, he, hshows⟩
  next => exact h path' buf' hbuf'

section

variable {M : Prog.Machine Call Res World} {fails : Exn → Prop} {E : Exn → World → Prop}

/-- What is remembered of a path or looked up is what stands there. -/
theorem cachedlstat_holds (hM : Looking M fails) (use : Use) {path : Text} {l : Loc} {e : Entry}
    {Q : StatBuf → World → Prop} (hcache : CacheRight s) (hl : s.fs.locate false path = some l)
    (he : s.fs.entry l = some e)
    (hQ : ∀ buf s', Shows buf e → s'.fs = s.fs → CacheRight s' → Q buf s')
    (hE : ∀ err s', fails err → E err s') :
    Holds M (fun _ _ => True) (cachedlstat use path) Q E s := by
  apply holds_bind
  refine ⟨trivial, fun r s' hget => ?_⟩
  obtain ⟨rfl, rfl⟩ := hM.cacheGet hget
  cases hbuf : s'.statcache path with
  | some buf =>
      obtain ⟨l', e', hl', he', hshows⟩ := hcache path buf hbuf
      rw [hl] at hl'
      cases hl'
      rw [he] at he'
      cases he'
      exact hQ buf s' hshows rfl hcache
  | none =>
      obtain ⟨buf, hstat, hshows⟩ := shows_statOf he
      have hpath : statPath s'.fs false path = some buf := by rw [statPath, hl]; exact hstat
      apply holds_bind
      refine ⟨trivial, fun r s₁ hlstat => ?_⟩
      obtain ⟨rfl, hr⟩ := hM.lstat hpath hlstat
      rcases hr with rfl | ⟨err, rfl, hfails⟩
      · apply holds_bind
        refine ⟨trivial, fun r s₂ hset => ?_⟩
        obtain rfl := hM.cacheSet hset
        exact hQ buf _ hshows rfl (cacheRight_set hcache hl he hshows)
      · exact hE err _ hfails

theorem readlink_holds (hM : Looking M fails) (use : Use) {path t : Text} {l : Loc}
    {Q : Text → World → Prop} (hl : s.fs.locate false path = some l)
    (he : s.fs.entry l = some (.symlink t)) (hQ : Q t s) (hE : ∀ err s', fails err → E err s') :
    Holds M (fun _ _ => True) (readlink use path) Q E s := by
  have hlink : s.fs.lookup false path = some (.symlink t) := by rw [Fs.lookup, hl]; exact he
  refine ⟨trivial, fun r s' hM' => ?_⟩
  obtain ⟨rfl, hr⟩ := hM.readlink hlink hM'
  rcases hr with rfl | ⟨err, rfl, hfails⟩
  · exact hQ
  · exact hE err _ hfails

end

theorem cacheRight_grows (h : CacheRight s) (hfs : Grows s.fs s'.fs)
    (hcache : s'.statcache = s.statcache) : CacheRight s' := by
  intro path buf hbuf
  rw [hcache] at hbuf
  obtain ⟨l, e, hl, he, hshows⟩ := h path buf hbuf
  have he' := hfs.entry l e he
  exact ⟨l, e, Fs.locate_keepsWays (Fs.keepsWays_of_grows hfs) hl (he'.trans he.symm), he', hshows⟩

theorem mirrors_same (h : Mirrors C s) (hfs : s'.fs = s.fs) (hcache : CacheRight s') :
    Mirrors C s' := by
  refine ⟨?_, ?_, hcache⟩
  · rw [hfs]
    exact h.dirs
  · rw [hfs]
    exact h.mirrored

theorem mirrors_sameEntries (h : Mirrors C s) (hfs : Fs.SameEntries s.fs s'.fs)
    (hcache : s'.statcache = s.statcache) : Mirrors C s' := by
  have hgrows := Fs.grows_same hfs
  refine ⟨Fs.dirsTo_mono h.dirs hgrows.entry, fun x e hx => ?_,
    cacheRight_grows h.cache hgrows hcache⟩
  rw [jailed, hfs.2] at hx
  rw [hfs.2]
  exact h.mirrored x e hx

/-- An entry that the real system has is made in the jail. -/
theorem mirrors_adds {e : Entry} (h : Mirrors C s) (hadds : Fs.Adds s.fs fs' (C ++ x) e)
    (he : s.fs.entry x = some e) : Mirrors C { s with fs := fs' } := by
  have hgrows := Fs.grows_adds hadds
  refine ⟨Fs.dirsTo_mono h.dirs hgrows.entry, fun y e' hy => ?_, cacheRight_grows h.cache hgrows rfl⟩
  rw [jailed, hadds.2.2] at hy
  split at hy
  next heq =>
    cases hy
    rw [List.append_cancel_left heq]
    exact hgrows.entry x e he
  next => exact hgrows.entry y e' (h.mirrored y e' hy)

theorem jailed_grows (h : Grows fs fs') (x : Loc) (e : Entry) (he : jailed C fs x = some e) :
    jailed C fs' x = some e :=
  h.entry _ e he

theorem placed_grows {done : List Text} {ret : Text} (h : Placed C fs done ret x n)
    (hfs : Grows fs fs') : Placed C fs' done ret x n :=
  ⟨h.text, Fs.dirsTo_mono h.dirs hfs.entry,
    Fs.walks_mono h.walks (jailed_grows hfs) fun _ _ hok => hok⟩

theorem dirsTo_jailed (h : DirsTo fs.entry (C ++ x)) : DirsTo (jailed C fs) x :=
  fun y hy => h (C ++ y) (List.prefix_append_right_inj C |>.mpr hy)

/-- A way in the jail is a way on the real system. -/
theorem walks_mirrored {cur : Loc} {cs : List Text} (h : Mirrors C s)
    (hw : Walks (jailed C s.fs) Mirrorable n cur cs x) :
    Walks s.fs.entry Mirrorable n cur cs x :=
  Fs.walks_mono hw h.mirrored fun _ _ hok => hok

/-- A name below directories is found where it stands. -/
theorem locate_dirs {b : List Text} {c : Text} (hb : ∀ c ∈ b, ValidName c) (hc : ValidName c)
    (h : DirsTo fs.entry b) : fs.locate false (joinPath (b ++ [c])) = some (b ++ [c]) := by
  have hall : ∀ c' ∈ b ++ [c], ValidName c' := valid_snoc hb hc
  have hto : Walks fs.entry Mirrorable 0 [] b ([] ++ b) :=
    Fs.walks_dirs (fun c hc => Fs.named_of_valid (hb c hc)) h
  have hpath : components (joinPath (b ++ [c])) = ([] :: b) ++ [c] :=
    components_joinPath hall (by simp)
  exact Fs.locate_last (isAbsolute_joinPath _) hpath (Fs.named_of_valid hc)
    (.stay (Or.inl rfl) hto) (Nat.zero_le _)

theorem locate_dirs_follow {b : List Text} (hne : b ≠ []) (hb : ∀ c ∈ b, ValidName c)
    (h : DirsTo fs.entry b) : fs.locate true (joinPath b) = some b := by
  have hto : Walks fs.entry Mirrorable 0 [] b ([] ++ b) :=
    Fs.walks_dirs (fun c hc => Fs.named_of_valid (hb c hc)) h
  have hall : Walks fs.entry Mirrorable 0 [] (components (joinPath b)) b := by
    rw [components_joinPath hb hne]
    exact .stay (Or.inl rfl) hto
  exact Fs.locate_walks (isAbsolute_joinPath b) hall (Nat.zero_le _)

theorem exists_ends (path : Text) {Q : Bool → World → Prop}
    (h : Q (s.fs.lookup true path).isSome s) : Ends umask chroot (exists_ path) Q s := by
  refine ⟨trivial, fun r s' hM => ?_⟩
  obtain ⟨heq, -⟩ := hM
  cases heq
  exact h

theorem mirror_looking : Looking (MirrorStep umask chroot) fun _ => False where
  cacheGet h := by
    obtain ⟨heq, -⟩ := h
    cases heq
    exact ⟨rfl, rfl⟩
  cacheSet h := by
    obtain ⟨heq, -⟩ := h
    cases heq
    rfl
  lstat hbuf h := by
    obtain ⟨heq, -⟩ := h
    rw [execute, hbuf] at heq
    cases heq
    exact ⟨rfl, Or.inl rfl⟩
  readlink hlink h := by
    obtain ⟨heq, -⟩ := h
    rw [execute, readLink, hlink] at heq
    cases heq
    exact ⟨rfl, Or.inl rfl⟩

theorem cachedlstat_ends (use : Use) {path : Text} {l : Loc} {e : Entry}
    {Q : StatBuf → World → Prop} (hcache : CacheRight s) (hl : s.fs.locate false path = some l)
    (he : s.fs.entry l = some e)
    (hQ : ∀ buf s', Shows buf e → s'.fs = s.fs → CacheRight s' → Q buf s') :
    Ends umask chroot (cachedlstat use path) Q s :=
  cachedlstat_holds mirror_looking use hcache hl he hQ fun _ _ h => h.elim

theorem readlink_ends (use : Use) {path t : Text} {l : Loc} {Q : Text → World → Prop}
    (hl : s.fs.locate false path = some l) (he : s.fs.entry l = some (.symlink t))
    (hQ : MirrorSafe chroot s (.readlink use path) (.ok t) → Q t s) :
    Ends umask chroot (readlink use path) Q s := by
  have hread : readLink s.fs path = .ok t := by simp [readLink, Fs.lookup, hl, he]
  refine ⟨trivial, fun r s' hM => ?_⟩
  obtain ⟨heq, hsafe⟩ := hM
  rw [execute, hread] at heq
  cases heq
  exact hQ hsafe

theorem mkdir_ends {path : Text} (mode : Nat) {l : Loc} {Q : Unit → World → Prop}
    (hlast : path.getLast? ≠ some '/') (hl : s.fs.locate false path = some l)
    (hQ : ∀ fs', Fs.Adds s.fs fs' l .dir → Q () { s with fs := fs' }) :
    Ends umask chroot (mkdir path mode) Q s := by
  refine ⟨trivial, fun r s' hM => ?_⟩
  obtain ⟨heq, hsafe⟩ := hM
  obtain ⟨hnone, hplace⟩ := Fs.place_of_missing hl hsafe
  rw [execute, Fs.mkdir, Fs.placeDir_of_last hlast, hplace] at heq
  cases heq
  exact hQ _ (Fs.adds_insert hnone .dir)

theorem symlink_ends {path t : Text} {l : Loc} {Q : Unit → World → Prop} (ht : t ≠ [])
    (hl : s.fs.locate false path = some l)
    (hQ : ∀ fs', Fs.Adds s.fs fs' l (.symlink t) → Q () { s with fs := fs' }) :
    Ends umask chroot (symlink t path) Q s := by
  refine ⟨trivial, fun r s' hM => ?_⟩
  obtain ⟨heq, hsafe⟩ := hM
  obtain ⟨hnone, hplace⟩ := Fs.place_of_missing hl hsafe
  rw [execute, Fs.symlink, if_neg ht, hplace] at heq
  cases heq
  exact hQ _ (Fs.adds_insert hnone (.symlink t))

theorem setAttrs_dir {path : Text} {l : Loc} (hl : fs.locate true path = some l)
    (hdir : fs.entry l = some .dir) (f : Attrs → Attrs) :
    ∃ fs', fs.setAttrs path f = some fs' ∧ Fs.SameEntries fs fs' := by
  have hset : fs.setAttrs path f = some (fs.setDirAttrs l (f (fs.dirAttrs l))) := by
    simp [Fs.setAttrs, hl, hdir]
  exact ⟨_, hset, Fs.setAttrs_same hset⟩

section

variable {umask n : Nat} {C x : Loc} {s s' : World} {name t : Text} (hne : C ≠ [])
  (hC : ∀ c ∈ C, ValidName c) (hx : ∀ c ∈ x, ValidName c)

include hne hC in
theorem joinPath_take (a : Text) : (joinPath (C ++ x) ++ a).take 2 ≠ ['/', '/'] := by
  obtain ⟨c, cs, rfl⟩ := List.exists_cons_of_ne_nil hne
  have hc := hC c List.mem_cons_self
  obtain ⟨y, c', rfl⟩ := List.exists_cons_of_ne_nil hc.1
  have hy : y ≠ '/' := fun h => hc.2.2.2 (h ▸ List.mem_cons_self)
  rw [joinPath_slashed (by simp)]
  simp [JkLib.slashed, hy]

include hC hx in
theorem valid_append : ∀ c ∈ C ++ x, ValidName c :=
  List.forall_mem_append.mpr ⟨hC, hx⟩

include hne in
theorem pointsOutside_below (y : Loc) :
    pointsOutside (joinPath C) (joinPath (C ++ y)) = false := by
  have htake : (joinPath (C ++ y)).take (joinPath C).length = joinPath C := by
    rw [joinPath_append hne, List.take_left]
  rw [pointsOutside, htake]
  simp

include hne hC hx

theorem normpath_relative (hrel : isAbsolute t = false) :
    normpath (osPathJoin (joinPath (C ++ x)) t) = joinPath (landed C x t) := by
  have hhead : t.head? ≠ some '/' := of_decide_eq_false hrel
  have hbase : joinPath (C ++ x) ≠ [] := by
    intro hnil
    have habs := isAbsolute_joinPath (C ++ x)
    rw [hnil] at habs
    cases habs
  obtain ⟨a, ha⟩ : ∃ a, osPathJoin (joinPath (C ++ x)) t = joinPath (C ++ x) ++ a := by
    rw [osPathJoin, if_neg hhead]
    split
    · exact ⟨_, rfl⟩
    · exact ⟨_, rfl⟩
  have habs : isAbsolute (osPathJoin (joinPath (C ++ x)) t) = true := by
    obtain ⟨c, rest, hcons⟩ := List.exists_cons_of_ne_nil hbase
    have hjoin := isAbsolute_joinPath (C ++ x)
    rw [ha, hcons]
    rw [hcons] at hjoin
    exact hjoin
  have hstart : start x t = x := by rw [start, hrel]; rfl
  rw [normpath_joinPath habs (by rw [ha]; exact joinPath_take hne hC a),
    names_osPathJoin_relative hbase hhead, names_joinPath (valid_append hC hx), landed, hstart]

/-- Where the code takes a symlink of the jail to lead. -/
theorem landing_joinPath (hname : ValidName name) :
    landing (joinPath C) (joinPath (C ++ x ++ [name])) t = joinPath (landed C x t) := by
  rw [landing]
  split
  next hhead =>
    cases t with
    | nil => cases hhead
    | cons c t =>
        cases hhead
        have htake : (joinPath (C ++ []) ++ '/' :: t).take 2 ≠ ['/', '/'] := joinPath_take hne hC _
        rw [List.append_nil] at htake
        have habs : isAbsolute (joinPath C ++ '/' :: t) = true := by
          rw [joinPath_slashed hne]
          obtain ⟨c, cs, rfl⟩ := List.exists_cons_of_ne_nil hne
          rfl
        have hempty : components ('/' :: t) = [] :: components t := components_slash [] t
        have hstart : start x ('/' :: t) = [] := rfl
        have hlanded : landed C x ('/' :: t) = (components t).foldl (normStep true) C := by
          rw [landed, hstart, List.append_nil, hempty, List.foldl_cons, normStep,
            if_pos (Or.inl rfl)]
        rw [normpath_joinPath habs htake, names_slash, names_joinPath hC, hlanded]
  next hhead =>
    have hrel : isAbsolute t = false := decide_eq_false hhead
    rw [dirname_joinPath (valid_append hC hx) hname]
    exact normpath_relative hne hC hx hrel

omit hne

theorem landed_mirror (hu : UpFirst x t) : landed C x t = C ++ lexical x t :=
  lexical_append (fun h => (hC _ h).2.2.1 rfl) (fun h => (hx _ h).2.2.1 rfl) hu

end

end

end Jailkit.Tools
