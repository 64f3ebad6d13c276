import Zaciraci.Persistence.ConfigStore
import Zaciraci.Web.Services

namespace Zaciraci.Web

open Lib Program Auth Persistence

/-- A query is answered and done, or fails and changes nothing. -/
def Replies {α : Type} (reply : α) (done store : ConfigStore) (answer : Except String α)
    (store' : ConfigStore) : Prop :=
  (answer = .ok reply ∧ store' = done) ∨ ∃ e, answer = .error e ∧ store' = store

def configTables : Environment Query Answer ConfigStore
  | .getAllForInstance instanceId, store, answer, store' =>
    Replies (store.getAllForInstance instanceId) store store answer store'
  | .getOne instanceId key, store, answer, store' =>
    Replies (store.getOne instanceId key) store store answer store'
  | .upsert instanceId key value description, store, answer, store' =>
    ∃ now, Replies () (store.upsert now instanceId key value description) store answer store'
  | .delete instanceId key, store, answer, store' =>
    ∃ now, Replies () (store.delete now instanceId key) store answer store'
  | .cleanupOldHistory retentionDays, store, answer, store' =>
    ∃ now, Replies () (store.cleanupOldHistory now retentionDays) store answer store'
  | _, store, _, store' => store' = store

def Rpc.effect : Rpc → Settings → Settings
  | .upsert instanceId key value _, settings =>
    settings.set (resolveInstanceId instanceId) key (some value)
  | .delete instanceId key, settings => settings.set (resolveInstanceId instanceId) key none
  | _, settings => settings

variable {svc : Service} {user : Option AuthenticatedUser} {rpc : Rpc} {store store' : ConfigStore}
  {τ : List (Exchange Query Answer)} {o : Outcome Status Response}

theorem value_of_not_isWrite {q : Query} {answer : Answer q} (hq : q.isWrite = false)
    (h : configTables q store answer store') : store'.value = store.value := by
  cases q with
  | getAllForInstance | getOne =>
    obtain ⟨-, rfl⟩ | ⟨_, -, rfl⟩ := h <;> rfl
  | upsert | delete => cases hq
  | cleanupOldHistory retentionDays =>
    obtain ⟨now, ⟨-, rfl⟩ | ⟨_, -, rfl⟩⟩ := h
    · exact value_cleanupOldHistory retentionDays
    · rfl
  | getPaginated | countAll | getByPeriod | getSpotRatesAtTime =>
    rw [show store' = store from h]

theorem runs_ofExcept_bind {α : Type} {check : Except Status α} {f : α → Handler Response}
    (h : Runs configTables (ofExcept check >>= f) store τ o store') :
    (∃ a, check = .ok a ∧ Runs configTables (f a) store τ o store') ∨
      ∃ status, o = .err status ∧ store' = store := by
  cases check with
  | ok a => exact .inl ⟨a, rfl, h⟩
  | error status =>
    cases h
    exact .inr ⟨status, rfl, rfl⟩

/-- What a call comes to: it succeeds with an effect on the settings, or fails without. -/
def Settles (o : Outcome Status Response) (store' : ConfigStore) (done kept : Settings) : Prop :=
  (∀ response, o = .ok response → store'.value = done) ∧
    ((∀ response, o ≠ .ok response) → store'.value = kept)

theorem settles_err {status : Status} {done : Settings} :
    Settles (.err status) store done store.value := ⟨fun _ h ↦ (nomatch h), fun _ ↦ rfl⟩

theorem settles_of_write {α β : Type} {role : Except Status α} {arguments : Except Status β}
    {write : Handler (Except String Unit)} {retentionDays : UInt32} {done : Settings}
    (hwrite : ∀ {υ reply store₁}, Runs configTables write store υ reply store₁ →
      (reply = .ok (.ok ()) ∧ store₁.value = done) ∨ ∃ e, reply = .ok (.error e) ∧ store₁ = store)
    (h : Runs configTables (do
      let _ ← ofExcept role
      let _ ← ofExcept arguments
      orInternal (← write)
      let _ ← perform (Query.cleanupOldHistory retentionDays)
      return Response.done) store τ o store') :
    Settles o store' done store.value := by
  obtain ⟨_, -, h⟩ | ⟨status, rfl, rfl⟩ := runs_ofExcept_bind h
  · obtain ⟨_, -, h⟩ | ⟨status, rfl, rfl⟩ := runs_ofExcept_bind h
    · obtain ⟨reply, _, _, store₁, hreply, hrest, -⟩ | ⟨e, herr, rfl⟩ | ⟨m, hpanic, rfl⟩ :=
        h.of_bind
      · obtain ⟨heq, hdone⟩ | ⟨e, heq, rfl⟩ := hwrite hreply
        · cases heq
          obtain ⟨answer, store₂, υ, hanswer, hlast, -⟩ := Runs.of_ask hrest
          obtain ⟨rfl, rfl, -⟩ := Runs.of_pure hlast
          have hvalue := value_of_not_isWrite (q := .cleanupOldHistory retentionDays) rfl hanswer
          exact ⟨fun _ _ ↦ hvalue.trans hdone, fun hne ↦ absurd rfl (hne .done)⟩
        · cases heq
          cases hrest
          exact settles_err
      · obtain ⟨heq, -⟩ | ⟨e, heq, -⟩ := hwrite herr <;> cases heq
      · obtain ⟨heq, -⟩ | ⟨e, heq, -⟩ := hwrite hpanic <;> cases heq
    · exact settles_err
  · exact settles_err

theorem runs_perform {q : Query} {υ : List (Exchange Query Answer)}
    {reply : Outcome Status (Answer q)}
    (h : Runs configTables (perform q) store υ reply store') :
    ∃ answer, reply = .ok answer ∧ configTables q store answer store' := by
  obtain ⟨answer, store₁, _, hanswer, hrest, -⟩ := Runs.of_ask h
  obtain ⟨rfl, rfl, -⟩ := Runs.of_pure hrest
  exact ⟨answer, rfl, hanswer⟩

def Rpc.isWrite : Rpc → Bool
  | .upsert .. | .delete .. => true
  | _ => false

theorem readsOnly_of_not_isWrite (hrpc : rpc.isWrite = false) :
    ReadsOnly (svc.handle user rpc) := by
  cases user with
  | none =>
    cases rpc with
    | upsert | delete => cases hrpc
    | _ => trivial
  | some user =>
    -- Only whether there is a user matters here, not the role.
    have hreader : ReadsOnly (svc.handle (some ⟨user.email, .reader⟩) rpc) :=
      readsOnly_handle svc rfl rpc
    cases rpc with
    | upsert | delete => cases hrpc
    | _ => exact hreader

theorem settles_of_handle (h : Runs configTables (svc.handle user rpc) store τ o store') :
    Settles o store' (rpc.effect store.value) store.value := by
  cases rpc with
  | upsert instanceId key text description =>
    refine settles_of_write (fun hreply ↦ ?_) h
    obtain ⟨answer, rfl, now, ⟨rfl, rfl⟩ | ⟨e, rfl, rfl⟩⟩ := runs_perform hreply
    · exact .inl ⟨rfl, value_upsert _ _ _ _⟩
    · exact .inr ⟨e, rfl, rfl⟩
  | delete instanceId key =>
    refine settles_of_write (fun hreply ↦ ?_) h
    obtain ⟨answer, rfl, now, ⟨rfl, rfl⟩ | ⟨e, rfl, rfl⟩⟩ := runs_perform hreply
    · exact .inl ⟨rfl, value_delete _ _⟩
    · exact .inr ⟨e, rfl, rfl⟩
  | _ =>
    have hvalue : store'.value = store.value :=
      h.preserves (I := fun s ↦ s.value = store.value) (readsOnly_of_not_isWrite rfl)
        (fun q s a s' hq hs hI ↦ (value_of_not_isWrite hq hs).trans hI) rfl
    exact ⟨fun _ _ ↦ hvalue, fun _ ↦ hvalue⟩

/-- Calls one after the other, with what each came to. -/
inductive Serves (svc : Service) :
    ConfigStore → List (Rpc × Outcome Status Response) → ConfigStore → Prop
  | nil (store : ConfigStore) : Serves svc store [] store
  | cons {user : Option AuthenticatedUser} {rpc : Rpc} {τ : List (Exchange Query Answer)}
      {o : Outcome Status Response} {calls : List (Rpc × Outcome Status Response)}
      {store store₁ store₂ : ConfigStore} :
      Runs configTables (svc.handle user rpc) store τ o store₁ → Serves svc store₁ calls store₂ →
      Serves svc store ((rpc, o) :: calls) store₂

def settingsAfter : List (Rpc × Outcome Status Response) → Settings → Settings
  | [], settings => settings
  | (rpc, .ok _) :: calls, settings => settingsAfter calls (rpc.effect settings)
  | (_, .err _) :: calls, settings | (_, .panicked _) :: calls, settings =>
    settingsAfter calls settings

variable {calls : List (Rpc × Outcome Status Response)} {instanceId key : String}
  {response : Response}

/-- No call is lost and none has an effect twice. -/
theorem Serves.value_eq (h : Serves svc store calls store') :
    store'.value = settingsAfter calls store.value := by
  induction h with
  | nil store => rfl
  | @cons user rpc τ o calls store store₁ store₂ hcall _ ih =>
    have hsettles := settles_of_handle hcall
    cases o with
    | ok response => rw [ih, settingsAfter, hsettles.1 response rfl]
    | err status => rw [ih, settingsAfter, hsettles.2 fun _ h ↦ nomatch h]
    | panicked m => rw [ih, settingsAfter, hsettles.2 fun _ h ↦ nomatch h]

theorem of_getAll
    (h : Runs configTables (svc.handle user (.getAll instanceId)) store τ (.ok response) store') :
    ∃ entries, response = .entries entries ∧ ∀ key text,
      ⟨key, text, resolveInstanceId instanceId⟩ ∈ entries ↔
        Settings.effective store.value (resolveInstanceId instanceId) key = some text := by
  obtain ⟨_, -, h⟩ | ⟨_, hnot, -⟩ := runs_ofExcept_bind h
  · obtain ⟨answer, store₁, _, hanswer, hrest, -⟩ := Runs.of_ask h
    obtain ⟨rfl, rfl⟩ | ⟨e, rfl, rfl⟩ := hanswer
    · cases hrest
      refine ⟨_, rfl, fun key text ↦ ?_⟩
      rw [Settings.effective, ← get_getAllForInstance, SortedMap.get_eq_some, List.mem_map]
      constructor
      · rintro ⟨entry, hentry, heq⟩
        cases heq
        exact hentry
      · intro hentry
        exact ⟨(key, text), hentry, rfl⟩
    · cases hrest
  · cases hnot

theorem of_getOne
    (h : Runs configTables (svc.handle user (.getOne instanceId key)) store τ (.ok response)
      store') : response = .value (store.getOne (resolveInstanceId instanceId) key) := by
  obtain ⟨_, -, h⟩ | ⟨_, hnot, -⟩ := runs_ofExcept_bind h
  · obtain ⟨_, -, h⟩ | ⟨_, hnot, -⟩ := runs_ofExcept_bind h
    · obtain ⟨answer, store₁, _, hanswer, hrest, -⟩ := Runs.of_ask h
      obtain ⟨rfl, rfl⟩ | ⟨e, rfl, rfl⟩ := hanswer
      · cases hrest
        rfl
      · cases hrest
    · cases hnot
  · cases hnot

/-- After any calls, an instance whose name is not sorted before `*` reads the value in force from
both services, and so does a process of that instance that reloads its configuration and does not
set the key itself. -/
theorem reads_after_calls {υ : List (Exchange Query Answer)} {listed read : Response}
    {user' : Option AuthenticatedUser} {store₁ store₂ store₃ : ConfigStore}
    (hcalls : Serves svc store calls store₁)
    (hall : Runs configTables (svc.handle user (.getAll instanceId)) store₁ τ (.ok listed) store₂)
    (hone : Runs configTables (svc.handle user' (.getOne instanceId key)) store₁ υ (.ok read)
      store₃)
    (hname : ¬ bytes (resolveInstanceId instanceId) < bytes "*") :
    ∃ entries value, listed = .entries entries ∧ read = .value value ∧
      value = Settings.effective (settingsAfter calls store.value) (resolveInstanceId instanceId)
        key ∧
      (∀ text, ⟨key, text, resolveInstanceId instanceId⟩ ∈ entries ↔ value = some text) ∧
      ∀ (src : Config.Sources) (text : String), src.configStore key = none → value = some text →
        text ≠ "" →
        Config.get (store₁.reloadToConfig (resolveInstanceId instanceId) src) key = .ok text := by
  obtain ⟨entries, rfl, hentries⟩ := of_getAll hall
  have hread := of_getOne hone
  rw [getOne_eq, if_neg hname] at hread
  refine ⟨entries, _, rfl, hread, ?_, hentries key, fun src text hsrc hvalue htext ↦ ?_⟩
  · rw [hcalls.value_eq]
    rfl
  · exact get_reloadToConfig hsrc hvalue htext

/-- A writer sets a value for the instance and deletes it again, a reader fails to change the one
for all instances, and both services and the configuration then give that one. -/
theorem reads_after_calls_tradeEnabled :
    let svc : Service := ⟨⟨"wrap.near"⟩, 30, []⟩
    let reader : AuthenticatedUser := ⟨alice, .reader⟩
    ∃ τ υ store' entries status,
      Serves svc (tradingStore "inst-1")
        [(.upsert "inst-1" "TRADE_ENABLED" "never" none, .ok .done),
          (.upsert "" "TRADE_ENABLED" "false" none, .err status),
          (.delete "inst-1" "TRADE_ENABLED", .ok .done)] store' ∧
      Runs configTables (svc.handle (some reader) (.getAll "inst-1")) store' τ
        (.ok (.entries entries)) store' ∧
      Runs configTables (svc.handle (some reader) (.getOne "inst-1" "TRADE_ENABLED")) store' υ
        (.ok (.value (some "true"))) store' ∧
      ⟨"TRADE_ENABLED", "true", "inst-1"⟩ ∈ entries ∧
      ∀ src : Config.Sources, src.configStore "TRADE_ENABLED" = none →
        Config.get (store'.reloadToConfig "inst-1" src) "TRADE_ENABLED" = .ok "true" := by
  intro svc reader
  let writer : AuthenticatedUser := ⟨alice, .writer⟩
  let store₁ := ((tradingStore "inst-1").upsert 2 "inst-1" "TRADE_ENABLED" "never"
    none).cleanupOldHistory 2 30
  let store' := (store₁.delete 3 "inst-1" "TRADE_ENABLED").cleanupOldHistory 3 30
  have hset : Runs configTables
      (svc.handle (some writer) (.upsert "inst-1" "TRADE_ENABLED" "never" none))
      (tradingStore "inst-1") _ (.ok .done) store₁ :=
    .ask ⟨2, .inl ⟨rfl, rfl⟩⟩ (.ask ⟨2, .inl ⟨rfl, rfl⟩⟩ (.done _ _))
  have hrefused : Runs configTables
      (svc.handle (some reader) (.upsert "" "TRADE_ENABLED" "false" none))
      store₁ _ (.err _) store₁ := .done _ _
  have hdelete : Runs configTables
      (svc.handle (some writer) (.delete "inst-1" "TRADE_ENABLED"))
      store₁ _ (.ok .done) store' :=
    .ask ⟨3, .inl ⟨rfl, rfl⟩⟩ (.ask ⟨3, .inl ⟨rfl, rfl⟩⟩ (.done _ _))
  have hcalls := Serves.cons hset (.cons hrefused (.cons hdelete (.nil store')))
  have hall : Runs configTables (svc.handle (some reader) (.getAll "inst-1")) store' _
      (.ok (.entries _)) store' := .ask (.inl ⟨rfl, rfl⟩) (.done _ _)
  have hone : Runs configTables (svc.handle (some reader) (.getOne "inst-1" "TRADE_ENABLED"))
      store' _ (.ok (.value _)) store' := .ask (.inl ⟨rfl, rfl⟩) (.done _ _)
  obtain ⟨entries, value, hlisted, hread, hvalue, hentries, hreload⟩ :=
    reads_after_calls hcalls hall hone (by decide)
  have htrue : value = some "true" := hvalue.trans (by decide)
  rw [hlisted] at hall
  rw [hread, htrue] at hone
  exact ⟨_, _, store', entries, _, hcalls, hall, hone, (hentries "true").2 htrue,
    fun src hsrc ↦ hreload src "true" hsrc htrue (by decide)⟩

end Zaciraci.Web
