-- The network model (backbone_analysis/analyze_network_model.py): it is read
-- off the functionality of the thread clusters, which is a text of names. The
-- name for a clone is the start of the name for a cloned thread, so a cluster
-- of cloned threads looks like one that clones.
import Ditto.Lib.PyDict
import Ditto.Lib.Rounding
import Ditto.Lib.Text
import Mathlib.Data.List.Infix

namespace ditto.network_model

/-! ## The characteristics of a cluster -/

def T_FUNCTIONALITY : List (List Char × ℕ) :=
  [("T_APP".toList, 1), ("T_NETIO_LISTEN".toList, 2), ("T_NETIO_TCP_SEND".toList, 4),
    ("T_NETIO_TCP_RECV".toList, 8), ("T_DISKIO_SEND".toList, 16), ("T_DISKIO_RECV".toList, 32),
    ("T_POLL".toList, 64), ("T_EPOLL".toList, 128), ("T_SELECT".toList, 256),
    ("T_CLONED".toList, 512), ("T_CLONE".toList, 1024), ("T_MASTER".toList, 2048)]

/-- A cluster of threads. `count_reqs` is the intercept of its count over the requests, if there
are runs to fit it to. -/
structure Cluster where
  functionality : ℕ
  count_reqs : Option ℚ
  socket_settings : List (List Char)
  pids_tids : List (ℕ × ℕ)

/-- The names of the bits of a mask, each with a separator behind it. -/
def functionality_names (functionality : ℕ) : List Char :=
  T_FUNCTIONALITY.flatMap fun e => if functionality &&& e.2 ≠ 0 then e.1 ++ [',', ' '] else []

/-- The text for a mask in `__cluster_characterization`. -/
def functionality_str (functionality : ℕ) : List Char :=
  (functionality_names functionality).dropLast.dropLast

/-- What the analyzer reads of a cluster. -/
structure Characteristics where
  functionality : List Char
  count_reqs : Option ℚ
  socket_settings : List (List Char)
  pids_tids : List (ℕ × ℕ)

def Cluster.characteristics (c : Cluster) : Characteristics where
  functionality := functionality_str c.functionality
  count_reqs := c.count_reqs
  socket_settings := c.socket_settings
  pids_tids := c.pids_tids

def cluster_characterization (clusters : PyDict ℕ Cluster) : PyDict ℕ Characteristics :=
  clusters.mapVal fun _ c => c.characteristics

/-! ## The analyzer -/

structure NetworkModel where
  accept_dispatch : Bool := false
  network_dispatch : Bool := false
  network_epoll : Bool := false
  nonblocking : Bool := false
  blocking : Bool := false
  accept_thread_pool_size : ℤ := -1
  network_thread_pool_size : ℤ := -1
deriving DecidableEq

/-- The model of `assert p, message`. -/
def assert (p : Prop) [Decidable p] (message : String) : Except PyError Unit :=
  if p then .ok () else .error (.exception ("AssertionError: " ++ message))

/-- A run that ends in an assertion. -/
def Asserts {α : Type} (x : Except PyError α) : Prop :=
  ∃ message, x = .error (.exception ("AssertionError: " ++ message))

/-- The model of `l[i]`. -/
def item {α : Type} (l : List α) (i : ℕ) : Except PyError α :=
  match l[i]? with
  | none => .error .indexError
  | some a => .ok a

/-- The model of `round(float(count["reqs"]["intercept"]))`. -/
def pool_size (c : Characteristics) : Except PyError ℤ :=
  match c.count_reqs with
  | none => .error .keyError
  | some intercept => .ok (roundEven intercept)

/-- A name is in the functionality of a cluster. -/
def Characteristics.mentions (c : Characteristics) (name : String) : Bool :=
  name.toList <:+: c.functionality

/-- The part of `analyze_network_model` for the network threads. -/
def analyze_network_thread (model : NetworkModel) (network_thread : Characteristics) :
    Except PyError NetworkModel :=
  if network_thread.mentions "T_EPOLL" then do
    assert (¬ network_thread.mentions "T_CLONE") "We assume epoll models use thread pool."
    let network_thread_pool_size ← pool_size network_thread
    return { model with network_epoll := true, network_thread_pool_size }
  else do
    assert (network_thread.socket_settings.length = 1)
      "Threads within a cluster should have the same socket settings."
    let setting ← item network_thread.socket_settings 0
    return if "O_NONBLOCK".toList <:+: setting then { model with nonblocking := true }
      else { model with blocking := true }

/-- The check at the end of `analyze_network_model`. -/
def checked (model : NetworkModel) : Except PyError NetworkModel := do
  assert (model.network_epoll.toNat + model.nonblocking.toNat + model.blocking.toNat = 1) ""
  return model

def analyze_network_model (thread_characteristics : PyDict ℕ Characteristics)
    (main_thread_pid : ℕ) : Except PyError NetworkModel := do
  let accept_threads := thread_characteristics.entries.filter (·.2.mentions "T_NETIO_LISTEN")
  let network_threads := thread_characteristics.entries.filter (·.2.mentions "T_NETIO_TCP_SEND")
  assert (accept_threads.length = 1) ("There should be only one type of thread handling " ++
    "connections. " ++ toString accept_threads.length ++ " threads found.")
  assert (network_threads.length = 1) ("There should be only one type of thread handling " ++
    "requests. " ++ toString network_threads.length ++ " threads found.")
  let accept_thread ← item accept_threads 0
  let network_thread ← item network_threads 0
  let pid_tid ← item accept_thread.2.pids_tids 0
  let accept_thread_pool_size ← pool_size accept_thread.2
  let model ← analyze_network_thread {
    network_dispatch := accept_thread.1 ≠ network_thread.1
    accept_dispatch := pid_tid.2 ≠ main_thread_pid
    accept_thread_pool_size } network_thread.2
  checked model

/-! ## The names in a text -/

/-- A cluster has a bit of its functionality. -/
def Cluster.Has (c : Cluster) (bit : ℕ) : Prop := c.functionality &&& bit ≠ 0

instance (c : Cluster) (bit : ℕ) : Decidable (c.Has bit) := inferInstanceAs (Decidable (_ ≠ _))

def LISTEN : ℕ := 2
def TCP_SEND : ℕ := 4
def EPOLL : ℕ := 128
def CLONED : ℕ := 512
def CLONE : ℕ := 1024

/-- A word that is no part of a separator. -/
structure Word (p : List Char) : Prop where
  ne_nil : p ≠ []
  comma : ',' ∉ p
  blank : ' ' ∉ p

theorem Word.infix_separated {p : List Char} (hp : Word p) (s t : List Char) :
    p <:+: (s ++ [',', ' ']) ++ t ↔ p <:+: s ∨ p <:+: t := by
  have happend : (s ++ [',', ' ']) ++ t = s ++ ',' :: ([] ++ ' ' :: t) := by simp
  rw [happend, Text.infix_append_cons_iff hp.comma, Text.infix_append_cons_iff hp.blank,
    List.infix_nil]
  simp [hp.ne_nil]

theorem Word.infix_flatMap {p : List Char} (hp : Word p) (functionality : ℕ)
    (es : List (List Char × ℕ)) :
    (p <:+: es.flatMap fun e => if functionality &&& e.2 ≠ 0 then e.1 ++ [',', ' '] else []) ↔
      ∃ e ∈ es, functionality &&& e.2 ≠ 0 ∧ p <:+: e.1 := by
  induction es with
  | nil => simp [hp.ne_nil]
  | cons e es ih =>
    simp only [List.flatMap_cons, List.mem_cons, exists_eq_or_imp]
    split
    · rename_i hbit
      rw [hp.infix_separated, ih]
      simp [hbit]
    · rename_i hbit
      rw [List.nil_append, ih]
      simp [hbit]

/-- The text without its last separator. -/
theorem exists_names_eq (functionality : ℕ) (es : List (List Char × ℕ)) :
    (es.flatMap fun e => if functionality &&& e.2 ≠ 0 then e.1 ++ [',', ' '] else []) = [] ∨
      ∃ s, (es.flatMap fun e => if functionality &&& e.2 ≠ 0 then e.1 ++ [',', ' '] else []) =
        s ++ [',', ' '] := by
  induction es with
  | nil => exact .inl rfl
  | cons e es ih =>
    rw [List.flatMap_cons]
    rcases ih with hnil | ⟨s, hs⟩
    · rw [hnil, List.append_nil]
      split
      · exact .inr ⟨e.1, rfl⟩
      · exact .inl rfl
    · rw [hs, ← List.append_assoc]
      exact .inr ⟨_, rfl⟩

/-- A word is in the text for a mask exactly if it is in the name of one of the bits. -/
theorem Word.infix_functionality_str {p : List Char} (hp : Word p) (functionality : ℕ) :
    p <:+: functionality_str functionality ↔
      ∃ e ∈ T_FUNCTIONALITY, functionality &&& e.2 ≠ 0 ∧ p <:+: e.1 := by
  rw [← hp.infix_flatMap]
  unfold functionality_str functionality_names
  rcases exists_names_eq functionality T_FUNCTIONALITY with hnil | ⟨s, hs⟩
  · rw [hnil]
    rfl
  · have hdrop : (s ++ [',', ' ']).dropLast.dropLast = s := by
      simp [List.dropLast_append_of_ne_nil]
    have hsep := hp.infix_separated s []
    rw [List.append_nil, List.infix_nil, or_iff_left hp.ne_nil] at hsep
    rw [hs, hdrop, hsep]

/-- The names with a word in them say which bits a mention stands for. -/
theorem Cluster.mentions_iff {name : String} (bits : List ℕ) (hp : Word name.toList)
    (hnames : ∀ e ∈ T_FUNCTIONALITY, name.toList <:+: e.1 ↔ e.2 ∈ bits)
    (hbits : ∀ bit ∈ bits, bit ∈ T_FUNCTIONALITY.map Prod.snd) (c : Cluster) :
    c.characteristics.mentions name = true ↔ ∃ bit ∈ bits, c.Has bit := by
  unfold Characteristics.mentions Cluster.characteristics Cluster.Has
  rw [decide_eq_true_iff, hp.infix_functionality_str]
  constructor
  · rintro ⟨e, he, hbit, hname⟩
    exact ⟨e.2, (hnames e he).mp hname, hbit⟩
  · rintro ⟨bit, hbit, hhas⟩
    obtain ⟨e, he, rfl⟩ := List.mem_map.mp (hbits bit hbit)
    exact ⟨e, he, hhas, (hnames e he).mpr hbit⟩

theorem Cluster.mentions_listen (c : Cluster) :
    c.characteristics.mentions "T_NETIO_LISTEN" = true ↔ c.Has LISTEN := by
  rw [c.mentions_iff [LISTEN] ⟨by decide, by decide, by decide⟩ (by decide +kernel)
    (by decide)]
  simp

theorem Cluster.mentions_tcp_send (c : Cluster) :
    c.characteristics.mentions "T_NETIO_TCP_SEND" = true ↔ c.Has TCP_SEND := by
  rw [c.mentions_iff [TCP_SEND] ⟨by decide, by decide, by decide⟩ (by decide +kernel)
    (by decide)]
  simp

theorem Cluster.mentions_epoll (c : Cluster) :
    c.characteristics.mentions "T_EPOLL" = true ↔ c.Has EPOLL := by
  rw [c.mentions_iff [EPOLL] ⟨by decide, by decide, by decide⟩ (by decide +kernel)
    (by decide)]
  simp

/-- The name of a cloned thread has the name of a clone in it. -/
theorem Cluster.mentions_clone (c : Cluster) :
    c.characteristics.mentions "T_CLONE" = true ↔ c.Has CLONE ∨ c.Has CLONED := by
  rw [c.mentions_iff [CLONE, CLONED] ⟨by decide, by decide, by decide⟩
    (by decide +kernel) (by decide)]
  simp

/-! ## The threads with a bit -/

section Clusters

variable {clusters : PyDict ℕ Cluster} {bit : ℕ}

theorem filter_characterization {name : String}
    (hname : ∀ c : Cluster, c.characteristics.mentions name = true ↔ c.Has bit) :
    (cluster_characterization clusters).entries.filter (·.2.mentions name) =
      (clusters.entries.filter (·.2.Has bit)).map fun e => (e.1, e.2.characteristics) := by
  simp only [cluster_characterization, PyDict.mapVal, List.filter_map]
  congr 1
  refine List.filter_congr fun e _ => ?_
  rw [Function.comp_apply, Bool.eq_iff_iff, hname, decide_eq_true_iff]

theorem length_filter_has :
    (clusters.entries.filter (·.2.Has bit)).length = clusters.values.countP (·.Has bit) := by
  rw [PyDict.values, List.countP_map, List.countP_eq_length_filter]
  rfl

/-- The cluster that has a bit, where there is only one. -/
theorem exists_only (h : clusters.values.countP (·.Has bit) = 1) :
    ∃ e, clusters.entries.filter (·.2.Has bit) = [e] ∧ e.2 ∈ clusters.values ∧ e.2.Has bit ∧
      ∀ c ∈ clusters.values, c.Has bit → c = e.2 := by
  rw [← length_filter_has] at h
  obtain ⟨e, he⟩ := List.length_eq_one_iff.mp h
  have hmem : ∀ x, x ∈ clusters.entries ∧ x.2.Has bit ↔ x = e := by
    intro x
    rw [← List.mem_singleton, ← he, List.mem_filter, decide_eq_true_iff]
  obtain ⟨hentry, hhas⟩ := (hmem e).mpr rfl
  refine ⟨e, he, List.mem_map_of_mem hentry, hhas, fun c hc hbit => ?_⟩
  obtain ⟨x, hx, rfl⟩ := List.mem_map.mp hc
  rw [(hmem x).mp ⟨hx, hbit⟩]

end Clusters

/-! ## The run of the analyzer -/

theorem assert_of_not {p : Prop} [Decidable p] (h : ¬ p) (message : String) {α : Type}
    (f : Unit → Except PyError α) : Asserts (assert p message >>= f) :=
  ⟨message, by rw [assert, if_neg h]; rfl⟩

theorem Asserts.bind {α β : Type} {x : Except PyError α} (h : Asserts x)
    (f : α → Except PyError β) : Asserts (x >>= f) := by
  obtain ⟨message, rfl⟩ := h
  exact ⟨message, rfl⟩

theorem assert_of {p : Prop} [Decidable p] (h : p) (message : String) :
    assert p message = .ok () := if_pos h

theorem checked_of_one {model : NetworkModel}
    (h : [model.network_epoll, model.nonblocking, model.blocking].count true = 1) :
    checked model = .ok model := by
  have hsum : model.network_epoll.toNat + model.nonblocking.toNat + model.blocking.toNat = 1 := by
    revert h
    generalize model.network_epoll = e, model.nonblocking = n, model.blocking = b
    revert e n b
    decide
  rw [checked, assert_of hsum]
  rfl

/-- How the part for the network threads can end. -/
inductive NetworkEnd (c : Cluster) (model : NetworkModel) : Except PyError NetworkModel → Prop
  | clones {r : Except PyError NetworkModel} (epoll : c.Has EPOLL)
      (clone : c.Has CLONE ∨ c.Has CLONED) (asserts : Asserts r) : NetworkEnd c model r
  | uncounted (epoll : c.Has EPOLL) (clone : ¬ c.Has CLONE) (cloned : ¬ c.Has CLONED)
      (count : c.count_reqs = none) : NetworkEnd c model (.error .keyError)
  | epoll (epoll : c.Has EPOLL) (clone : ¬ c.Has CLONE) (cloned : ¬ c.Has CLONED)
      (count : c.count_reqs ≠ none) (size : ℤ) : NetworkEnd c model
        (.ok { model with network_epoll := true, network_thread_pool_size := size })
  | settings {r : Except PyError NetworkModel} (epoll : ¬ c.Has EPOLL)
      (settings : c.socket_settings.length ≠ 1) (asserts : Asserts r) : NetworkEnd c model r
  | nonblocking (epoll : ¬ c.Has EPOLL) (settings : c.socket_settings.length = 1) :
      NetworkEnd c model (.ok { model with nonblocking := true })
  | blocking (epoll : ¬ c.Has EPOLL) (settings : c.socket_settings.length = 1) :
      NetworkEnd c model (.ok { model with blocking := true })

theorem networkEnd (c : Cluster) (model : NetworkModel) :
    NetworkEnd c model (analyze_network_thread model c.characteristics) := by
  unfold analyze_network_thread
  simp only [c.mentions_epoll, c.mentions_clone]
  split
  · rename_i hepoll
    by_cases hclone : c.Has CLONE ∨ c.Has CLONED
    · exact .clones hepoll hclone (assert_of_not (not_not.mpr hclone) _ _)
    · rw [assert_of hclone]
      obtain ⟨hclone, hcloned⟩ := not_or.mp hclone
      cases hcount : c.count_reqs with
      | none =>
        have hpool : pool_size c.characteristics = .error .keyError := by
          simp [pool_size, Cluster.characteristics, hcount]
        rw [hpool]
        exact .uncounted hepoll hclone hcloned hcount
      | some q =>
        have hpool : pool_size c.characteristics = .ok (roundEven q) := by
          simp [pool_size, Cluster.characteristics, hcount]
        rw [hpool]
        exact .epoll hepoll hclone hcloned (by simp [hcount]) _
  · rename_i hepoll
    by_cases hlen : c.socket_settings.length = 1
    · rw [assert_of (by exact hlen)]
      obtain ⟨setting, hsetting⟩ := List.length_eq_one_iff.mp hlen
      have hitem : item c.characteristics.socket_settings 0 = .ok setting := by
        simp [item, Cluster.characteristics, hsetting]
      rw [hitem]
      simp only [bind, Except.bind, pure, Except.pure]
      split
      · exact .nonblocking hepoll hlen
      · exact .blocking hepoll hlen
    · exact .settings hepoll hlen (assert_of_not hlen _ _)

section Run

variable {clusters : PyDict ℕ Cluster} {main_thread_pid : ℕ}

theorem asserts_of_accept (h : clusters.values.countP (·.Has LISTEN) ≠ 1) :
    Asserts (analyze_network_model (cluster_characterization clusters) main_thread_pid) := by
  unfold analyze_network_model
  refine assert_of_not ?_ _ _
  rwa [filter_characterization Cluster.mentions_listen, List.length_map, length_filter_has]

theorem asserts_of_network (h : clusters.values.countP (·.Has LISTEN) = 1)
    (h' : clusters.values.countP (·.Has TCP_SEND) ≠ 1) :
    Asserts (analyze_network_model (cluster_characterization clusters) main_thread_pid) := by
  unfold analyze_network_model
  dsimp only
  rw [assert_of (by
    rwa [filter_characterization Cluster.mentions_listen, List.length_map, length_filter_has])]
  refine assert_of_not ?_ _ _
  rwa [filter_characterization Cluster.mentions_tcp_send, List.length_map, length_filter_has]

/-- What is left to do when there is one cluster of each type. -/
theorem analyze_of_one {a n : ℕ × Cluster} (ha : clusters.entries.filter (·.2.Has LISTEN) = [a])
    (hn : clusters.entries.filter (·.2.Has TCP_SEND) = [n]) :
    analyze_network_model (cluster_characterization clusters) main_thread_pid = (do
      let pid_tid ← item a.2.pids_tids 0
      let accept_thread_pool_size ← pool_size a.2.characteristics
      let model ← analyze_network_thread {
        network_dispatch := a.1 ≠ n.1
        accept_dispatch := pid_tid.2 ≠ main_thread_pid
        accept_thread_pool_size } n.2.characteristics
      checked model) := by
  unfold analyze_network_model
  rw [filter_characterization Cluster.mentions_listen, ha,
    filter_characterization Cluster.mentions_tcp_send, hn]
  rfl

/-- The run where the accepting cluster has a thread and a count. -/
theorem analyze_of_readable {a n : ℕ × Cluster}
    (ha : clusters.entries.filter (·.2.Has LISTEN) = [a])
    (hn : clusters.entries.filter (·.2.Has TCP_SEND) = [n]) (hpids : a.2.pids_tids ≠ [])
    (hcount : a.2.count_reqs ≠ none) :
    ∃ model : NetworkModel, model.network_epoll = false ∧ model.nonblocking = false ∧
      model.blocking = false ∧
      analyze_network_model (cluster_characterization clusters) main_thread_pid =
        (analyze_network_thread model n.2.characteristics >>= checked) := by
  obtain ⟨pid_tid, rest, hpid⟩ := List.exists_cons_of_ne_nil hpids
  obtain ⟨q, hq⟩ := Option.ne_none_iff_exists'.mp hcount
  have hitem : item a.2.pids_tids 0 = .ok pid_tid := by simp [item, hpid]
  have hpool : pool_size a.2.characteristics = .ok (roundEven q) := by
    simp [pool_size, Cluster.characteristics, hq]
  rw [analyze_of_one ha hn, hitem, hpool]
  exact ⟨_, rfl, rfl, rfl, rfl⟩

/-- An accepting cluster without a thread or a count ends in an error that is no assertion. -/
theorem analyze_of_unreadable {a n : ℕ × Cluster}
    (ha : clusters.entries.filter (·.2.Has LISTEN) = [a])
    (hn : clusters.entries.filter (·.2.Has TCP_SEND) = [n])
    (h : a.2.pids_tids = [] ∨ a.2.count_reqs = none) :
    analyze_network_model (cluster_characterization clusters) main_thread_pid =
        .error .indexError ∨
      analyze_network_model (cluster_characterization clusters) main_thread_pid =
        .error .keyError := by
  rw [analyze_of_one ha hn]
  cases hpid : a.2.pids_tids with
  | nil => exact .inl rfl
  | cons pid_tid rest =>
    have hcount : a.2.count_reqs = none := h.resolve_left (by simp [hpid])
    have hpool : pool_size a.2.characteristics = .error .keyError := by
      simp [pool_size, Cluster.characteristics, hcount]
    rw [hpool]
    exact .inr rfl

end Run

/-! ## The laws -/

/-- What the clusters are rejected for: there is not one of each type, or the network threads
clone though they use epoll, or they differ in their socket settings. -/
def Rejected (clusters : PyDict ℕ Cluster) : Prop :=
  clusters.values.countP (·.Has LISTEN) ≠ 1 ∨ clusters.values.countP (·.Has TCP_SEND) ≠ 1 ∨
    ∃ n ∈ clusters.values, n.Has TCP_SEND ∧
      (n.Has EPOLL ∧ n.Has CLONE ∨ ¬ n.Has EPOLL ∧ n.socket_settings.length ≠ 1)

/-- The network model is what the bits say. -/
def DecidedByBits (clusters : PyDict ℕ Cluster) (main_thread_pid : ℕ) : Prop :=
  let run := analyze_network_model (cluster_characterization clusters) main_thread_pid
  (Asserts run ↔ Rejected clusters) ∧
    (¬ Rejected clusters → ∃ model, run = .ok model ∧
      [model.network_epoll, model.nonblocking, model.blocking].count true = 1 ∧
      (model.network_epoll = true ↔ ∃ n ∈ clusters.values, n.Has TCP_SEND ∧ n.Has EPOLL))

theorem decided_of_rejected {clusters : PyDict ℕ Cluster} {main_thread_pid : ℕ}
    (h : Rejected clusters)
    (hrun : Asserts (analyze_network_model (cluster_characterization clusters) main_thread_pid)) :
    DecidedByBits clusters main_thread_pid :=
  ⟨iff_of_true hrun h, fun hnot => absurd h hnot⟩

/-- A run that ends in another error is not what the bits say. -/
theorem not_decided_of_error {clusters : PyDict ℕ Cluster} {main_thread_pid : ℕ} {err : PyError}
    (hrun : analyze_network_model (cluster_characterization clusters) main_thread_pid =
      .error err) (herr : ∀ message, err ≠ .exception message) :
    ¬ DecidedByBits clusters main_thread_pid := by
  rintro ⟨hasserts, hmodel⟩
  by_cases hrejected : Rejected clusters
  · obtain ⟨message, heq⟩ := hasserts.mpr hrejected
    rw [hrun] at heq
    cases heq
    exact herr _ rfl
  · obtain ⟨model, heq, -⟩ := hmodel hrejected
    rw [hrun] at heq
    cases heq

theorem decided_of_model {clusters : PyDict ℕ Cluster} {main_thread_pid : ℕ}
    {model : NetworkModel} (h : ¬ Rejected clusters)
    (hrun : analyze_network_model (cluster_characterization clusters) main_thread_pid =
      checked model)
    (hone : [model.network_epoll, model.nonblocking, model.blocking].count true = 1)
    (hepoll : model.network_epoll = true ↔ ∃ n ∈ clusters.values, n.Has TCP_SEND ∧ n.Has EPOLL) :
    DecidedByBits clusters main_thread_pid := by
  rw [checked_of_one hone] at hrun
  refine ⟨iff_of_false ?_ h, fun _ => ⟨model, hrun, hone, hepoll⟩⟩
  rintro ⟨message, heq⟩
  rw [hrun] at heq
  cases heq

/-- When the accepting cluster can be read, the network cluster says whether the bits decide. -/
theorem decided_iff_of_readable {clusters : PyDict ℕ Cluster} {main_thread_pid : ℕ}
    {a n : ℕ × Cluster} (ha : clusters.entries.filter (·.2.Has LISTEN) = [a])
    (hn : clusters.entries.filter (·.2.Has TCP_SEND) = [n])
    (hrejected : Rejected clusters ↔
      n.2.Has EPOLL ∧ n.2.Has CLONE ∨ ¬ n.2.Has EPOLL ∧ n.2.socket_settings.length ≠ 1)
    (hepoll : (∃ c ∈ clusters.values, c.Has TCP_SEND ∧ c.Has EPOLL) ↔ n.2.Has EPOLL)
    (hthread : a.2.pids_tids ≠ []) (hcounted : a.2.count_reqs ≠ none) :
    DecidedByBits clusters main_thread_pid ↔
      (n.2.Has EPOLL → ¬ n.2.Has CLONE → ¬ n.2.Has CLONED ∧ n.2.count_reqs ≠ none) := by
  obtain ⟨model, hmodel, hmodel', hmodel'', hrun⟩ :=
    @analyze_of_readable clusters main_thread_pid a n ha hn hthread hcounted
  have hend := networkEnd n.2 model
  generalize analyze_network_thread model n.2.characteristics = r at hrun hend
  cases hend with
  | clones hbit hclones hasserts =>
    have hasserts' := hasserts.bind checked
    rw [← hrun] at hasserts'
    by_cases hclone : n.2.Has CLONE
    · have hdecided := decided_of_rejected (hrejected.mpr (.inl ⟨hbit, hclone⟩)) hasserts'
      exact iff_of_true hdecided fun _ hnot => absurd hclone hnot
    · -- A cloned thread looks like one that clones.
      have hcloned := hclones.resolve_left hclone
      refine iff_of_false (fun hdecided => ?_) fun h => (h hbit hclone).1 hcloned
      have := hrejected.mp (hdecided.1.mp hasserts')
      simp [hbit, hclone] at this
  | uncounted hbit hclone hcloned hcount =>
    exact iff_of_false (not_decided_of_error hrun (by simp)) fun h => (h hbit hclone).2 hcount
  | epoll hbit hclone hcloned hcount size =>
    have hnot : ¬ Rejected clusters := by simp [hrejected, hbit, hclone]
    refine iff_of_true (decided_of_model hnot hrun ?_ ?_) fun _ _ => ⟨hcloned, hcount⟩
    · simp [hmodel', hmodel'']
    · simp [hepoll, hbit]
  | settings hbit hlen hasserts =>
    have hasserts' := hasserts.bind checked
    rw [← hrun] at hasserts'
    exact iff_of_true (decided_of_rejected (hrejected.mpr (.inr ⟨hbit, hlen⟩)) hasserts')
      fun h => absurd h hbit
  | nonblocking hbit hlen =>
    have hnot : ¬ Rejected clusters := by simp [hrejected, hbit, hlen]
    refine iff_of_true (decided_of_model hnot hrun ?_ ?_) fun h => absurd h hbit
    · simp [hmodel, hmodel'']
    · simp [hepoll, hbit, hmodel]
  | blocking hbit hlen =>
    have hnot : ¬ Rejected clusters := by simp [hrejected, hbit, hlen]
    refine iff_of_true (decided_of_model hnot hrun ?_ ?_) fun h => absurd h hbit
    · simp [hmodel, hmodel']
    · simp [hepoll, hbit, hmodel]

/-- With one cluster of each type, the two clusters say whether the bits decide. -/
theorem decided_iff_of_one {clusters : PyDict ℕ Cluster} {main_thread_pid : ℕ} {a n : ℕ × Cluster}
    (ha : clusters.entries.filter (·.2.Has LISTEN) = [a])
    (hn : clusters.entries.filter (·.2.Has TCP_SEND) = [n])
    (hrejected : Rejected clusters ↔
      n.2.Has EPOLL ∧ n.2.Has CLONE ∨ ¬ n.2.Has EPOLL ∧ n.2.socket_settings.length ≠ 1)
    (hepoll : (∃ c ∈ clusters.values, c.Has TCP_SEND ∧ c.Has EPOLL) ↔ n.2.Has EPOLL) :
    DecidedByBits clusters main_thread_pid ↔
      a.2.pids_tids ≠ [] ∧ a.2.count_reqs ≠ none ∧
        (n.2.Has EPOLL → ¬ n.2.Has CLONE → ¬ n.2.Has CLONED ∧ n.2.count_reqs ≠ none) := by
  by_cases hread : a.2.pids_tids ≠ [] ∧ a.2.count_reqs ≠ none
  · rw [decided_iff_of_readable ha hn hrejected hepoll hread.1 hread.2]
    exact ⟨fun h => ⟨hread.1, hread.2, h⟩, fun h => h.2.2⟩
  · have hunread : a.2.pids_tids = [] ∨ a.2.count_reqs = none := by
      rw [not_and_or] at hread
      simpa using hread
    refine iff_of_false ?_ fun h => hread ⟨h.1, h.2.1⟩
    rcases @analyze_of_unreadable clusters main_thread_pid a n ha hn hunread with hrun | hrun
    · exact not_decided_of_error hrun (by simp)
    · exact not_decided_of_error hrun (by simp)

/-- The bits decide on the network model exactly if, with one cluster of each type, the accepting
cluster has a thread and a count, and an epoll cluster that does not clone is not cloned either
and has a count. -/
theorem network_model_is_decided_by_bits_iff_not_cloned (clusters : PyDict ℕ Cluster)
    (main_thread_pid : ℕ) :
    DecidedByBits clusters main_thread_pid ↔
      (clusters.values.countP (·.Has LISTEN) = 1 → clusters.values.countP (·.Has TCP_SEND) = 1 →
        ∀ a ∈ clusters.values, a.Has LISTEN → ∀ n ∈ clusters.values, n.Has TCP_SEND →
          a.pids_tids ≠ [] ∧ a.count_reqs ≠ none ∧
            (n.Has EPOLL → ¬ n.Has CLONE → ¬ n.Has CLONED ∧ n.count_reqs ≠ none)) := by
  by_cases hlisten : clusters.values.countP (·.Has LISTEN) = 1
  swap
  · have hdecided := decided_of_rejected (.inl hlisten)
      (@asserts_of_accept clusters main_thread_pid hlisten)
    exact iff_of_true hdecided fun h => absurd h hlisten
  by_cases hsend : clusters.values.countP (·.Has TCP_SEND) = 1
  swap
  · have hdecided := decided_of_rejected (.inr (.inl hsend))
      (@asserts_of_network clusters main_thread_pid hlisten hsend)
    exact iff_of_true hdecided fun _ h => absurd h hsend
  obtain ⟨a, ha, haMem, haHas, haOnly⟩ := exists_only hlisten
  obtain ⟨n, hn, hnMem, hnHas, hnOnly⟩ := exists_only hsend
  have honly (p : Cluster → Prop) :
      (∃ c ∈ clusters.values, c.Has TCP_SEND ∧ p c) ↔ p n.2 := by
    constructor
    · rintro ⟨c, hc, hhas, hp⟩
      rwa [← hnOnly c hc hhas]
    · exact fun hp => ⟨n.2, hnMem, hnHas, hp⟩
  have hrejected : Rejected clusters ↔
      n.2.Has EPOLL ∧ n.2.Has CLONE ∨ ¬ n.2.Has EPOLL ∧ n.2.socket_settings.length ≠ 1 := by
    rw [Rejected, honly]
    simp [hlisten, hsend]
  rw [decided_iff_of_one ha hn hrejected (honly _)]
  constructor
  · intro h _ _ c hc hhas c' hc' hhas'
    rwa [haOnly c hc hhas, hnOnly c' hc' hhas']
  · intro h
    exact h hlisten hsend a.2 haMem haHas n.2 hnMem hnHas

/-- Workers that a main thread has cloned, which wait with epoll and send. -/
def clonedWorkers : PyDict ℕ Cluster :=
  (PyDict.empty.set 0 ⟨2, some 1, [], [(100, 100)]⟩).set 1 ⟨4 + 128 + 512, some 4, [], [(100, 101)]⟩

/-- The analyzer takes the workers for threads that clone. -/
theorem cloned_workers_are_not_decided_by_bits :
    ¬ Rejected clonedWorkers ∧
    analyze_network_model (cluster_characterization clonedWorkers) 100 =
      .error (.exception "AssertionError: We assume epoll models use thread pool.") ∧
    ¬ DecidedByBits clonedWorkers 100 := by
  have hnot : ¬ Rejected clonedWorkers := by
    unfold Rejected
    decide +kernel
  have hrun : analyze_network_model (cluster_characterization clonedWorkers) 100 =
      .error (.exception "AssertionError: We assume epoll models use thread pool.") := by
    decide +kernel
  refine ⟨hnot, hrun, ?_⟩
  rintro ⟨-, hmodel⟩
  obtain ⟨model, heq, -⟩ := hmodel hnot
  rw [hrun] at heq
  cases heq

end ditto.network_model
