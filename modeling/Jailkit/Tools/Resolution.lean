import Jailkit.Tools.Mirroring

/-!
`resolve_realpath` beside the kernel: the directory that a process reaches whose root is the
jail, and the one that the code takes from the texts of the symlinks.
-/
namespace Jailkit.Tools

open JkLib Raising
open Fs (ValidName Walks DirsTo start isAbsolute components)

/-- The directory of the jail that a process reaches whose root is `C`. -/
def ReachesDir (C : Loc) (fs : Fs) (path : Text) (d : Loc) : Prop :=
  (fs.chrooted C).locate true path = some d ∧ (fs.chrooted C).entry d = some .dir

instance (C : Loc) (fs : Fs) (path : Text) (d : Loc) : Decidable (ReachesDir C fs path d) :=
  inferInstanceAs (Decidable (_ ∧ _))

/-- For a path in the jail with a directory part that a process in the jail can resolve, the
code raises or gives the last name in that directory, with no symlink on the way to it. -/
def ResolvesRight (umask : Nat) (C : Loc) (fs : Fs) : Prop :=
  ∀ ps name d s s' r, (∀ c ∈ ps, ValidName c) → ValidName name → ReachesDir C fs (joinPath ps) d →
    s.fs = fs → CacheRight s →
    Prog.Returns (posix umask)
      (resolveRealpath (joinPath (C ++ ps ++ [name])) (joinPath C) false) s r s' →
    (∃ e, r = .error e) ∨ (r = .ok (joinPath (C ++ d ++ [name])) ∧ DirsTo (jailed C fs) d)

/-- The code raises for a symlink in the directory `x` of the jail. -/
def Refused (C x : Loc) (t : Text) : Prop :=
  isAbsolute t = false ∧ pointsOutside (joinPath C) (joinPath (landed C x t)) = true

instance (C x : Loc) (t : Text) : Decidable (Refused C x t) :=
  inferInstanceAs (Decidable (_ ∧ _))

/-- A symlink in a directory of the jail that a process there follows to the directory `y` is
refused, or `y` is where its target leads as a text: behind the names of the jail, with each
`..` taken together with the name in front of it. -/
def TextualLinks (C : Loc) (fs : Fs) : Prop :=
  ∀ x n t k y, (∀ c ∈ x, ValidName c) → ValidName n → DirsTo (jailed C fs) x →
    jailed C fs (x ++ [n]) = some (.symlink t) → t ≠ [] → k < Fs.maxSymlinks →
    Walks (jailed C fs) (fun _ _ => True) k (start x t) (components t) y →
    Refused C x t ∨ landed C x t = C ++ y

/-- Every call succeeds that can. -/
def computed (umask : Nat) : Prog.Machine Call Res World :=
  fun s c r s' => execute umask s c = (r, s')

theorem computed_answers (umask : Nat) (s : World) (c : Call) :
    ∃ r s', computed umask s c r s' := ⟨_, _, rfl⟩

theorem computed_looking (umask : Nat) : Looking (computed umask) fun _ => False where
  cacheGet h := by
    cases h
    exact ⟨rfl, rfl⟩
  cacheSet h := by
    cases h
    rfl
  lstat hbuf h := by
    rw [computed, execute, hbuf] at h
    cases h
    exact ⟨rfl, Or.inl rfl⟩
  readlink hlink h := by
    rw [computed, execute, readLink, hlink] at h
    cases h
    exact ⟨rfl, Or.inl rfl⟩

theorem posix_looking (umask : Nat) : Looking (posix umask) fun _ => True where
  cacheGet h := h
  cacheSet h := h
  lstat {use path buf s s' r} hbuf h := by
    obtain ⟨hfinds, hs⟩ := h
    refine ⟨hs, ?_⟩
    cases r with
    | ok buf' =>
        have hbuf' : statPath s.fs false path = some buf' := hfinds
        rw [hbuf] at hbuf'
        cases hbuf'
        exact Or.inl rfl
    | error e => exact Or.inr ⟨e, rfl, trivial⟩
  readlink {use path t s s' r} hlink h := by
    obtain ⟨hreads, hs⟩ := h
    refine ⟨hs, ?_⟩
    cases r with
    | ok t' =>
        have hlink' : s.fs.lookup false path = some (.symlink t') := hreads
        rw [hlink] at hlink'
        cases hlink'
        exact Or.inl rfl
    | error e => exact Or.inr ⟨e, rfl, trivial⟩

section

variable {umask k : Nat} {C x d : Loc} {fs : Fs} {name t : Text} {s : World} {ps : List Text}
  (hne : C ≠ []) (hC : ∀ c ∈ C, ValidName c) (hx : ∀ c ∈ x, ValidName c) (hname : ValidName name)

theorem jailed_chrooted (hC : DirsTo fs.entry C) : (fs.chrooted C).entry = jailed C fs := by
  funext x
  exact Fs.entry_chrooted (hC C (List.prefix_refl C)) x

/-- Directories of the jail below the directories that lead to it. -/
theorem dirsTo_below (hC : DirsTo fs.entry C) (hx : DirsTo (jailed C fs) x) :
    DirsTo fs.entry (C ++ x) := by
  intro y hy
  cases List.prefix_or_prefix_of_prefix hy (List.prefix_append C x) with
  | inl habove => exact hC y habove
  | inr hpast =>
      obtain ⟨z, rfl⟩ := hpast
      exact hx z (List.prefix_append_right_inj C |>.mp hy)

theorem reachesDir_iff (hC : DirsTo fs.entry C) (hps : ∀ c ∈ ps, ValidName c) :
    ReachesDir C fs (joinPath ps) d ↔
      ∃ k, k ≤ Fs.maxSymlinks ∧ Walks (jailed C fs) (fun _ _ => True) k [] ps d := by
  constructor
  · intro h
    obtain ⟨hloc, hdir⟩ := h
    have hne : joinPath ps ≠ [] := by
      intro hnil
      have habs := isAbsolute_joinPath ps
      rw [hnil] at habs
      cases habs
    rw [Fs.locate, if_neg hne, if_pos (isAbsolute_joinPath ps)] at hloc
    obtain ⟨k, hk, hway⟩ := Fs.walks_of_walk hdir hloc
    rw [jailed_chrooted hC] at hway
    exact ⟨k, hk, (walks_joinPath hps).mp hway⟩
  · intro h
    obtain ⟨k, hk, hway⟩ := h
    rw [← walks_joinPath hps, ← jailed_chrooted hC] at hway
    exact ⟨Fs.locate_walks (isAbsolute_joinPath ps) hway hk, Fs.walks_end hway⟩

include hne hC hx hname in
theorem follow_eq (ht : t ≠ []) :
    follow (joinPath C) (joinPath (C ++ x ++ [name])) t =
      if Refused C x t then raise .outsideJail else pure (joinPath (landed C x t)) := by
  have hland := landing_joinPath (t := t) hne hC hx hname
  cases t with
  | nil => exact absurd rfl ht
  | cons c t =>
      have hrel : isAbsolute (c :: t) = false ↔ c ≠ '/' := by simp [isAbsolute]
      have hrefused : Refused C x (c :: t) ↔
          c ≠ '/' ∧ pointsOutside (joinPath C) (joinPath (landed C x (c :: t))) = true := by
        rw [Refused, hrel]
      rw [follow, hland]
      exact if_congr hrefused.symm rfl rfl

section

variable {M : Prog.Machine Call Res World} {fails : Exn → Prop} {E : Exn → World → Prop}
  {Q : Text → World → Prop} {include_file : Bool} {rest : List Text}

include hne hC hx hname

/-- At a symlink the code goes on from where the target leads as a text. -/
theorem resolveLoop_link (hM : Looking M fails) (hE : ∀ e s', fails e → E e s') (ht : t ≠ [])
    (hcache : CacheRight s) (hdirs : DirsTo s.fs.entry (C ++ x))
    (hlink : s.fs.entry (C ++ x ++ [name]) = some (.symlink t))
    (hrefused : ∀ s', Refused C x t → E .outsideJail s')
    (hQ : ∀ s', ¬ Refused C x t → s'.fs = s.fs → CacheRight s' →
      Holds M (fun _ _ => True)
        (resolveLoop include_file (joinPath C) (joinPath (landed C x t)) rest) Q E s') :
    Holds M (fun _ _ => True)
      (resolveLoop include_file (joinPath C) (joinPath (C ++ x)) (name :: rest)) Q E s := by
  have hCx := valid_append hC hx
  have hloc := locate_dirs hCx hname hdirs
  rw [resolveLoop, osPathJoin_joinPath hCx hname]
  apply holds_bind
  refine cachedlstat_holds hM _ hcache hloc hlink ?_ hE
  intro sb s₁ hshows hfs hcache₁
  have hformat : sb.format = .lnk := hshows.2.mpr ⟨t, rfl⟩
  rw [← hfs] at hlink hloc
  rw [if_pos hformat]
  apply holds_bind
  refine readlink_holds hM _ hloc hlink ?_ hE
  rw [follow_eq hne hC hx hname ht]
  split
  next hno => exact hrefused s₁ hno
  next hyes => exact hQ s₁ hyes hfs hcache₁

omit hne hx

/-- The names of the jail itself are passed over. -/
theorem resolveRealpath_holds (hM : Looking M fails) (hE : ∀ e s', fails e → E e s')
    (hps : ∀ c ∈ ps, ValidName c) (hdirs : DirsTo s.fs.entry C) (hcache : CacheRight s)
    (hQ : ∀ s', s'.fs = s.fs → CacheRight s' →
      Holds M (fun _ _ => True) (resolveLoop false (joinPath C) (joinPath C) ps)
        (fun ret s'' => Q (osPathJoin ret name) s'') E s') :
    Holds M (fun _ _ => True)
      (resolveRealpath (joinPath (C ++ ps ++ [name])) (joinPath C) false) Q E s := by
  have hall : ∀ c ∈ C ++ ps ++ [name], ValidName c :=
    valid_snoc (valid_append hC hps) hname
  rw [resolveRealpath, if_neg (joinPath_ne_root hall (by simp))]
  apply holds_bind
  apply split_holds (isAbsolute_joinPath _)
  rw [names_joinPath hall, if_neg Bool.false_ne_true, List.getLast?_concat, List.dropLast_concat]
  apply holds_bind
  apply resolveLoop_dirs hM hE false (joinPath C) [] C ps hC s hcache hdirs
  intro s' hs' hcache'
  exact hQ s' hs' hcache'

end

/-- The rest of the path, from a directory of the jail to which no symlink leads. -/
theorem resolveLoop_resolves (hne : C ≠ []) (hC : ∀ c ∈ C, ValidName c)
    (hdirs : DirsTo fs.entry C) (hlinks : TextualLinks C fs) (hps : ∀ c ∈ ps, ValidName c)
    (hx : ∀ c ∈ x, ValidName c) (hto : DirsTo (jailed C fs) x) (hk : k ≤ Fs.maxSymlinks)
    (hway : Walks (jailed C fs) (fun _ _ => True) k x ps d) (hs : s.fs = fs)
    (hcache : CacheRight s) :
    Holds (posix umask) (fun _ _ => True) (resolveLoop false (joinPath C) (joinPath (C ++ x)) ps)
      (fun ret _ => ret = joinPath (C ++ d)) (fun _ _ => True) s := by
  induction ps generalizing x k s with
  | nil =>
      cases hway with
      | here _ => exact holds_pure _ rfl
  | cons c ps ih =>
      have hc : ValidName c := hps c List.mem_cons_self
      have hrest : ∀ c ∈ ps, ValidName c := fun c' hc' => hps c' (List.mem_cons_of_mem c hc')
      have hbelow : DirsTo s.fs.entry (C ++ x) := by
        rw [hs]
        exact dirsTo_below hdirs hto
      cases hway with
      | stay hplain _ => exact absurd hplain (Fs.named_of_valid hc).1
      | up _ _ => exact absurd rfl hc.2.2.1
      | down _ _ hway =>
          have hnext := Fs.dirsTo_snoc hto (Fs.walks_start hway)
          have hvalid : ∀ c' ∈ x ++ [c], ValidName c' :=
            valid_snoc hx hc
          have hbelow' : DirsTo s.fs.entry (C ++ x ++ [c]) := by
            rw [hs, List.append_assoc]
            exact dirsTo_below hdirs hnext
          have hall : ∀ c' ∈ C ++ x ++ [c], ValidName c' := by
            rw [List.append_assoc]
            exact valid_append hC hvalid
          apply resolveLoop_dirs (posix_looking umask) (fun _ _ _ => trivial) false (joinPath C)
            (C ++ x) [c] ps hall s hcache hbelow'
          intro s' hs' hcache'
          rw [List.append_assoc]
          exact ih hrest hvalid hnext hk hway (hs'.trans hs) hcache'
      | @follow n _ _ _ t _ _ _ hlink ht _ hway =>
          obtain ⟨i, j, y, hn, htarget, hon⟩ := Fs.walks_split hway
          have hentry : s.fs.entry (C ++ x ++ [c]) = some (.symlink t) := by
            rw [hs, List.append_assoc]
            exact hlink
          have hland := hlinks x c t i y hx hc hto hlink ht (by omega) htarget
          have hstart : DirsTo (jailed C fs) (start x t) := by
            rw [start]
            split
            · exact Fs.dirsTo_prefix hto List.nil_prefix
            · exact hto
          have hy := walks_valid htarget (start_valid hx) fun c' hc' => not_mem_components hc'
          have hytop := Fs.walks_dirsTo htarget hstart
          apply resolveLoop_link hne hC hx hc (posix_looking umask) (fun _ _ _ => trivial) ht hcache
            hbelow hentry fun _ _ => trivial
          intro s' hyes hs' hcache'
          rw [hland.resolve_left hyes]
          exact ih hrest hy hytop (by omega) hon (hs'.trans hs) hcache'

/-- A call for a name in a directory that a process in the jail reaches. -/
theorem resolveRealpath_right (hne : C ≠ []) (hC : ∀ c ∈ C, ValidName c)
    (hdirs : DirsTo fs.entry C) (hlinks : TextualLinks C fs) : ResolvesRight umask C fs := by
  intro ps name d s s' r hps hname hreach hs hcache hrun
  obtain ⟨k, hk, hway⟩ := (reachesDir_iff hdirs hps).mp hreach
  have hroot : DirsTo (jailed C fs) [] := by
    apply dirsTo_jailed
    rwa [List.append_nil]
  have hnone : ∀ c ∈ ([] : Loc), ValidName c := fun c hc => by cases hc
  have hd := walks_valid hway hnone fun c hc => (hps c hc).2.2.2
  have hdirs' : DirsTo s.fs.entry C := by rwa [hs]
  have hends : Holds (posix umask) (fun _ _ => True)
      (resolveRealpath (joinPath (C ++ ps ++ [name])) (joinPath C) false)
      (fun ret _ => ret = joinPath (C ++ d ++ [name])) (fun _ _ => True) s := by
    apply resolveRealpath_holds hC hname (posix_looking umask) (fun _ _ _ => trivial) hps hdirs'
      hcache
    intro s₁ hs₁ hcache₁
    have hloop : Holds (posix umask) (fun _ _ => True)
        (resolveLoop false (joinPath C) (joinPath (C ++ [])) ps)
        (fun ret _ => ret = joinPath (C ++ d)) (fun _ _ => True) s₁ :=
      resolveLoop_resolves hne hC hdirs hlinks hps hnone hroot hk hway (hs₁.trans hs) hcache₁
    rw [List.append_nil] at hloop
    refine holds_mono hloop ?_ fun _ _ hE => hE
    intro ret _ hret
    rw [hret, osPathJoin_joinPath (valid_append hC hd) hname]
  have hresult := Prog.result_of_returns hends hrun
  cases r with
  | error e => exact Or.inl ⟨e, rfl⟩
  | ok ret => exact Or.inr ⟨congrArg Except.ok hresult, Fs.walks_dirsTo hway hroot⟩

/-- What a name below a symlink tells of its target. -/
theorem landed_of_resolves (hne : C ≠ []) (hC : ∀ c ∈ C, ValidName c) (hdirs : DirsTo fs.entry C)
    (h : ResolvesRight umask C fs) : TextualLinks C fs := by
  intro x n t k y hx hn hto hlink ht hk htarget
  by_cases hrefused : Refused C x t
  · exact Or.inl hrefused
  have hxn : ∀ c ∈ x ++ [n], ValidName c := valid_snoc hx hn
  -- a process in the jail follows the symlink
  have hway : Walks (jailed C fs) (fun _ _ => True) (0 + (k + 1)) [] (x ++ [n]) y := by
    have htoX : Walks (jailed C fs) (fun _ _ => True) 0 [] x ([] ++ x) :=
      Fs.walks_dirs (fun c hc => Fs.named_of_valid (hx c hc)) hto
    refine Fs.walks_append htoX (.follow (Fs.named_of_valid hn) (hto x List.prefix_rfl) hlink ht
      trivial ?_)
    rwa [List.append_nil]
  have hreach := (reachesDir_iff hdirs hxn).mpr ⟨_, by omega, hway⟩
  have hf : ValidName ['f'] := by decide
  have hcache : CacheRight ⟨fs, fun _ => none, fun _ => []⟩ := fun path buf hbuf => by cases hbuf
  have hbelow := dirsTo_below hdirs hto
  have hends : Holds (computed umask) (fun _ _ => True)
      (resolveRealpath (joinPath (C ++ (x ++ [n]) ++ [['f']])) (joinPath C) false)
      (fun ret _ => ret = joinPath (landed C x t ++ [['f']])) (fun _ _ => False)
      ⟨fs, fun _ => none, fun _ => []⟩ := by
    apply resolveRealpath_holds hC hf (computed_looking umask) (fun _ _ h => h) hxn hdirs hcache
    intro s₁ hs₁ hcache₁
    apply resolveLoop_dirs (computed_looking umask) (fun _ _ h => h) false (joinPath C) C x [n]
      (valid_append hC hx) s₁ hcache₁ (by rwa [hs₁])
    intro s₂ hs₂ hcache₂
    have hsame : s₂.fs = fs := hs₂.trans hs₁
    have hentry : s₂.fs.entry (C ++ x ++ [n]) = some (.symlink t) := by
      rw [hsame, List.append_assoc]
      exact hlink
    apply resolveLoop_link hne hC hx hn (computed_looking umask) (fun _ _ h => h) ht hcache₂
      (by rwa [hsame]) hentry fun _ hno => absurd hno hrefused
    intro s₃ _ _ _
    rw [resolveLoop]
    exact holds_pure _ (osPathJoin_joinPath (landed_valid hC hx) hf)
  obtain ⟨r, s', hrun⟩ := Prog.exists_returns (computed_answers umask)
    (resolveRealpath (joinPath (C ++ (x ++ [n]) ++ [['f']])) (joinPath C) false)
    ⟨fs, fun _ => none, fun _ => []⟩
  have hresult := Prog.result_of_returns hends hrun
  have hposix := Prog.returns_mono (fun s c r s' hstep =>
    posix_of_execute umask s c r s' (congrArg some hstep)) hrun
  rcases h (x ++ [n]) ['f'] y _ s' r hxn hf hreach rfl hcache hposix with ⟨e, rfl⟩ | ⟨rfl, -⟩
  · exact hresult.elim
  · have hy := walks_valid htarget (start_valid hx) fun c hc => not_mem_components hc
    have htext : joinPath (C ++ y ++ [['f']]) = joinPath (landed C x t ++ [['f']]) := hresult
    have hlast : ∀ c ∈ [['f']], ValidName c := fun c hc => by rwa [List.mem_singleton.mp hc]
    have hnames := congrArg names htext
    rw [names_joinPath (valid_append (valid_append hC hy) hlast),
      names_joinPath (valid_append (landed_valid hC hx) hlast)] at hnames
    exact Or.inr (List.append_cancel_right hnames).symm

/-- `..` in front only and not above the jail, and directories only behind it. -/
theorem textualLinks_of_direct (hC : ∀ c ∈ C, ValidName c)
    (h : ∀ x n t, jailed C fs (x ++ [n]) = some (.symlink t) →
      UpFirst x t ∧ DirsTo (jailed C fs) (lexical x t)) : TextualLinks C fs := by
  intro x n t k y hx _ hto hlink _ _ hway
  obtain ⟨hup, hdirs⟩ := h x n t hlink
  have htarget : Walks (jailed C fs) (fun _ _ => True) 0 (start x t) (components t) (lexical x t) :=
    walks_target hto hx hup hdirs
  rw [(Fs.walks_unique hway htarget).2]
  exact Or.inr (landed_mirror hC hx hup)

/-- `resolve_realpath` resolves as a process in the jail does just where every symlink on which
that process can go on leads to a directory as a text, or is refused. -/
theorem resolveRealpath_right_iff (umask : Nat) {C : Loc} {fs : Fs} (hne : C ≠ [])
    (hC : ∀ c ∈ C, ValidName c) (hdirs : DirsTo fs.entry C) :
    ResolvesRight umask C fs ↔ TextualLinks C fs := by
  constructor
  · intro h
    exact landed_of_resolves hne hC hdirs h
  · intro h
    exact resolveRealpath_right hne hC hdirs h

end

def usrLib : Fs :=
  (worldOf 0o644 ((["jail".toList, "usr".toList, "lib".toList], .symlink "../lib".toList) ::
    dirsAt [["jail".toList], ["jail".toList, "usr".toList], ["jail".toList, "lib".toList]])).fs

theorem resolveRealpath_right_iff_usrLib : ResolvesRight 0o022 ["jail".toList] usrLib := by
  have hvalid : ∀ c ∈ ["jail".toList], ValidName c := by decide
  refine (resolveRealpath_right_iff 0o022 (by simp) hvalid (by decide +kernel)).mpr ?_
  apply textualLinks_of_direct hvalid
  intro x n t hlink
  have hmem := Fs.symlink_mem_nodes hlink
  have honly : x ++ [n] = ["usr".toList] ++ ["lib".toList] ∧ t = "../lib".toList := by
    simpa [usrLib, worldOf, dirsAt] using hmem
  obtain ⟨hxn, rfl⟩ := honly
  obtain ⟨rfl, -⟩ := List.append_inj' hxn rfl
  exact ⟨by decide +kernel, by decide +kernel⟩

def besideJail : World :=
  worldOf 0o644 ((["jail".toList, "a".toList], .symlink "../jail2".toList) ::
    dirsAt [["jail".toList], ["jail2".toList], ["jail".toList, "jail2".toList]])

/-- A process in `/jail` comes from `/a` to its own `/jail2`, the code to the other one. -/
theorem resolveRealpath_leaves_jail :
    DirsTo besideJail.fs.entry ["jail".toList] ∧
      ¬ ResolvesRight 0o022 ["jail".toList] besideJail.fs := by
  refine ⟨by decide +kernel, fun h => ?_⟩
  have hrun : ((resolveRealpath "/jail/a/f".toList "/jail".toList false).finish
      (fun s c => some (execute 0o022 s c)) besideJail).any (fun x =>
        decide (x.1 = .ok "/jail2/f".toList)) = true := by decide +kernel
  obtain ⟨r, s', hreturns, hcheck⟩ := Prog.returns_of_any (posix_of_execute 0o022) hrun
  have hresult : r = .ok "/jail2/f".toList := of_decide_eq_true hcheck
  have hright := h ["a".toList] "f".toList ["jail2".toList] besideJail s' r (by decide) (by decide)
    (by decide +kernel) rfl (fun _ _ hbuf => by cases hbuf) hreturns
  rw [hresult] at hright
  rcases hright with ⟨e, he⟩ | ⟨he, -⟩
  · cases he
  · exact absurd he (by decide +kernel)

end Jailkit.Tools
