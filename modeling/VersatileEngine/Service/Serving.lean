import VersatileEngine.Lib.Paths
import VersatileEngine.Search.Walk
import VersatileEngine.Service.Static

/-!
# VersatileEngine.Service.Serving

What the static file server opens for a request.

* `isPathSafe`, `tryServeFile` — the key behind the prefix, checked as a text and opened below the root.
* `handle`      — the handler: the proxies, the file, then the default file for a single-page application.
* `Env`         — the proxies and the file system.
* `FallsOut`    — the request falls through to a default file that lies outside of the root.
* `handle_contained` — **everything else that is opened stays inside the root**.

A response is its text, its status and its type.
-/

namespace VersatileEngine.StaticServer

structure Response where
  text : Str
  status : Nat
  mime : Str
deriving DecidableEq

/-- What the handler asks the outside: an answer of a proxy, and the file system. -/
structure Env where
  tryProxy : Mount → Str → Option Response
  isRegularFile : Str → Bool
  readFileBytes : Str → Str
  fileSize : Str → Option Nat

def notFound : Response := ⟨ascii "Not Found", 404, ascii "text/plain"⟩

def mimeTypes : List (Str × Str) :=
  [(ascii ".html", ascii "text/html"),
   (ascii ".htm", ascii "text/html"),
   (ascii ".css", ascii "text/css"),
   (ascii ".js", ascii "application/javascript"),
   (ascii ".json", ascii "application/json"),
   (ascii ".xml", ascii "application/xml"),
   (ascii ".txt", ascii "text/plain"),
   (ascii ".csv", ascii "text/csv"),
   (ascii ".png", ascii "image/png"),
   (ascii ".jpg", ascii "image/jpeg"),
   (ascii ".jpeg", ascii "image/jpeg"),
   (ascii ".gif", ascii "image/gif"),
   (ascii ".svg", ascii "image/svg+xml"),
   (ascii ".ico", ascii "image/x-icon"),
   (ascii ".webp", ascii "image/webp"),
   (ascii ".woff", ascii "font/woff"),
   (ascii ".woff2", ascii "font/woff2"),
   (ascii ".ttf", ascii "font/ttf"),
   (ascii ".otf", ascii "font/otf"),
   (ascii ".eot", ascii "application/vnd.ms-fontobject"),
   (ascii ".mp3", ascii "audio/mpeg"),
   (ascii ".mp4", ascii "video/mp4"),
   (ascii ".webm", ascii "video/webm"),
   (ascii ".wasm", ascii "application/wasm"),
   (ascii ".pdf", ascii "application/pdf"),
   (ascii ".zip", ascii "application/zip"),
   (ascii ".map", ascii "application/json")]

def mimeForPath (path : Str) : Str :=
  match rsplit 46 path with
  | none => ascii "application/octet-stream"
  | some (_, ext) => (mimeTypes.lookup (Search.toLower (46 :: ext))).getD (ascii "application/octet-stream")

/-- `relPath.find("..") != npos`. -/
def hasDots : Str → Bool
  | a :: b :: s => a = 46 && b = 46 || hasDots (b :: s)
  | _ => false

def isPathSafe (relPath : Str) : Bool :=
  !hasDots relPath && !relPath.contains 92 && relPath.head? ≠ some 47

namespace Mount

/-- `rel`, from the path behind the prefix. -/
def rel (m : Mount) (relPath : Str) : Str :=
  let rel := (relPath.takeWhile fun c => c ≠ 63 && c ≠ 35).dropWhile (· = 47)
  if rel = [] then m.defaultFile else rel

/-- `(fs::path(mount.root) / rel).lexically_normal()`. -/
def full (m : Mount) (rel : Str) : Str := Paths.lexicallyNormal 47 46 (Paths.join 47 m.root rel)

end Mount

section Handler

variable (env : Env)

/-- The files that are opened, and the response if there is one. -/
def tryServeFile (m : Mount) (relPath : Str) : List Str × Option Response :=
  if m.root = [] then ([], none)
  else
    let rel := m.rel relPath
    if !isPathSafe rel then ([], none)
    else
      let full := m.full rel
      if !env.isRegularFile full then ([], none)
      else
        let content := env.readFileBytes full
        if content = [] && (env.fileSize full).any (0 < ·) then ([full], none)
        else ([full], some ⟨content, 200, mimeForPath rel⟩)

/-- The path behind the prefix of the mount. -/
def Mount.relPath (m : Mount) (reqPath : Str) : Str :=
  if m.isRoot then reqPath else reqPath.drop m.mountPrefix.length

/-- The SPA fallback. -/
def fallback (m : Mount) : List Str × Response :=
  if m.spaFallback then
    let full := m.full m.defaultFile
    if env.isRegularFile full then
      ([full], ⟨env.readFileBytes full, 200, mimeForPath m.defaultFile⟩)
    else ([], notFound)
  else ([], notFound)

def handle (mounts : List Mount) (reqPath : Str) : List Str × Response :=
  match findMount mounts reqPath with
  | none => ([], notFound)
  | some m =>
    let relPath := m.relPath reqPath
    match env.tryProxy m relPath with
    | some rep => ([], rep)
    | none =>
      let (opened, served) := tryServeFile env m relPath
      match served with
      | some rep => (opened, rep)
      | none =>
        let (more, rep) := fallback env m
        (opened ++ more, rep)

end Handler

/-! ## Containment -/

/-- The root, or something below it. -/
def Mount.Inside (m : Mount) (path : Str) : Prop := (Paths.place 47 46 m.root).Within (Paths.place 47 46 path)

instance (m : Mount) (path : Str) : Decidable (m.Inside path) :=
  inferInstanceAs (Decidable (Paths.Place.Within _ _))

theorem hasDots_of_inside {s : Str} (h : [46, 46] <:+: s) : hasDots s = true := by
  induction s with
  | nil => simp at h
  | cons a s ih =>
    rcases List.infix_cons_iff.mp h with h | h
    · obtain ⟨t, ht⟩ := h
      rw [← ht]
      rfl
    · cases s with
      | nil => simp at h
      | cons b s => simp [hasDots, ih h]

/-- The normal form of a path below the root is inside where the path is. -/
theorem Mount.inside_full (m : Mount) (rel : Str) :
    m.Inside (m.full rel) ↔ m.Inside (Paths.join 47 m.root rel) := by
  rw [Mount.Inside, Mount.full, Paths.place_lexicallyNormal (by decide)]
  rfl

/-- What passes the check is a relative path without two dots as a component. -/
theorem inside_of_safe {m : Mount} {rel : Str} (h : isPathSafe rel = true) : m.Inside (m.full rel) := by
  simp only [isPathSafe, Bool.and_eq_true, Bool.not_eq_true', decide_eq_true_eq] at h
  obtain ⟨⟨hdots, -⟩, hhead⟩ := h
  refine m.inside_full rel |>.mpr (Paths.within_join hhead fun hmem => ?_)
  rw [hasDots_of_inside (Paths.infix_of_mem_splitOn hmem)] at hdots
  cases hdots

section Contained

variable {env : Env} {m : Mount}

/-- A regular file under a safe key that can be read. -/
structure Served (env : Env) (m : Mount) (relPath : Str) : Prop where
  root : m.root ≠ []
  safe : isPathSafe (m.rel relPath) = true
  regular : env.isRegularFile (m.full (m.rel relPath)) = true
  read : env.readFileBytes (m.full (m.rel relPath)) = [] →
    ∀ n, env.fileSize (m.full (m.rel relPath)) = some n → n = 0

theorem tryServeFile_inside (relPath : Str) : ∀ full ∈ (tryServeFile env m relPath).1, m.Inside full := by
  unfold tryServeFile
  split_ifs with hroot
  · simp
  · extract_lets rel full content
    cases hsafe : isPathSafe rel with
    | false => simp
    | true =>
      have hin := @inside_of_safe m rel hsafe
      split_ifs <;> simp [full, hin]

theorem tryServeFile_served (relPath : Str) :
    (tryServeFile env m relPath).2.isSome ↔ Served env m relPath := by
  unfold tryServeFile
  split_ifs with hroot
  · exact iff_of_false (by simp) fun h => h.root hroot
  · extract_lets rel full content
    split_ifs with hsafe hreg hread
    · exact iff_of_false (by simp) fun h => by simp [rel, h.safe] at hsafe
    · exact iff_of_false (by simp) fun h => by simp [full, rel, h.regular] at hreg
    · refine iff_of_false (by simp) fun h => ?_
      simp only [Bool.and_eq_true, decide_eq_true_eq, Option.any_eq_true] at hread
      obtain ⟨hnil, n, hn, hpos⟩ := hread
      exact absurd (h.read hnil n hn) (Nat.ne_of_gt hpos)
    · refine iff_of_true rfl ⟨hroot, by simpa using hsafe, by simpa using hreg, fun hnil n hn => ?_⟩
      simp only [Bool.and_eq_true, decide_eq_true_eq, Option.any_eq_true, not_and, not_exists] at hread
      exact Nat.eq_zero_of_not_pos (hread hnil n hn)

theorem fallback_opened (full : Str) : full ∈ (fallback env m).1 ↔
    m.spaFallback = true ∧ env.isRegularFile (m.full m.defaultFile) = true ∧ full = m.full m.defaultFile := by
  unfold fallback
  split_ifs with hspa
  · extract_lets file
    split_ifs with hreg
    · simp [hspa, hreg, file]
    · simp [file] at hreg
      simp [hreg]
  · simp [hspa]

section Ways

variable {mounts : List Mount} {reqPath : Str} {rep : Response}

theorem handle_proxied (hm : findMount mounts reqPath = some m)
    (hproxy : env.tryProxy m (m.relPath reqPath) = some rep) : (handle env mounts reqPath).1 = [] := by
  simp only [handle, hm, hproxy]

theorem handle_served (hm : findMount mounts reqPath = some m)
    (hproxy : env.tryProxy m (m.relPath reqPath) = none)
    (htry : (tryServeFile env m (m.relPath reqPath)).2 = some rep) :
    (handle env mounts reqPath).1 = (tryServeFile env m (m.relPath reqPath)).1 := by
  simp only [handle, hm, hproxy, htry]

theorem handle_fallback (hm : findMount mounts reqPath = some m)
    (hproxy : env.tryProxy m (m.relPath reqPath) = none)
    (htry : (tryServeFile env m (m.relPath reqPath)).2 = none) :
    (handle env mounts reqPath).1 = (tryServeFile env m (m.relPath reqPath)).1 ++ (fallback env m).1 := by
  simp only [handle, hm, hproxy, htry]

end Ways

/-- The request falls through to a default file that leads out of the root. -/
structure FallsOut (env : Env) (m : Mount) (reqPath : Str) : Prop where
  spa : m.spaFallback = true
  proxy : env.tryProxy m (m.relPath reqPath) = none
  file : ¬ Served env m (m.relPath reqPath)
  regular : env.isRegularFile (m.full m.defaultFile) = true
  outside : ¬ m.Inside (Paths.join 47 m.root m.defaultFile)

/-- **Containment.** What a request opens stays inside the root of its mount, except where it falls through
to a default file that leads out of the root: that file is opened without the check. -/
theorem handle_contained (env : Env) (mounts : List Mount) (reqPath : Str) :
    (∀ m, findMount mounts reqPath = some m → ∀ full ∈ (handle env mounts reqPath).1, m.Inside full) ↔
      ∀ m, findMount mounts reqPath = some m → ¬ FallsOut env m reqPath := by
  refine forall_congr' fun m => imp_congr_right fun hm => ?_
  cases hproxy : env.tryProxy m (m.relPath reqPath) with
  | some rep =>
    rw [handle_proxied hm hproxy]
    refine iff_of_true (by simp) fun h => ?_
    rw [h.proxy] at hproxy
    cases hproxy
  | none =>
    have hin := @tryServeFile_inside env m (m.relPath reqPath)
    have hserved := @tryServeFile_served env m (m.relPath reqPath)
    cases htry : (tryServeFile env m (m.relPath reqPath)).2 with
    | some rep =>
      rw [handle_served hm hproxy htry]
      exact iff_of_true hin fun h => h.file (hserved.mp (by rw [htry]; rfl))
    | none =>
      have hfile : ¬ Served env m (m.relPath reqPath) := fun h => by
        have := hserved.mpr h
        rw [htry] at this
        cases this
      rw [handle_fallback hm hproxy htry]
      constructor
      · intro h hout
        have hmem := (@fallback_opened env m _).mpr ⟨hout.spa, hout.regular, rfl⟩
        exact hout.outside ((m.inside_full _).mp (h _ (List.mem_append_right _ hmem)))
      · intro hno full hfull
        rcases List.mem_append.mp hfull with hfull | hfull
        · exact hin full hfull
        · obtain ⟨hspa, hreg, rfl⟩ := (fallback_opened full).mp hfull
          by_contra hout
          exact hno ⟨hspa, hproxy, hfile, hreg, fun h => hout ((m.inside_full _).mpr h)⟩

end Contained

/-- A default file next to the root, for a single-page application. -/
def besideCall : Call := ⟨ascii "/", ascii "www", ascii "../key", true⟩

def besideEnv : Env := ⟨fun _ _ => none, fun path => path = ascii "key", fun _ => ascii "k", fun _ => some 1⟩

/-- The file beside the root is opened for a path that is not there. -/
theorem default_file_escapes :
    ∃ m ∈ findMount (addMount [] besideCall) (ascii "/x"),
      ∃ full ∈ (handle besideEnv (addMount [] besideCall) (ascii "/x")).1, ¬ m.Inside full := by
  refine ⟨besideCall.mount, ?_, ascii "key", ?_, by decide⟩
  · simp [addMount]
    decide
  · simp [addMount]
    decide

end VersatileEngine.StaticServer
