import Nzbd.Nntp.Multiline
import Nzbd.Nserv.Post
import Nzbd.Nzb.RoundTrip
import Nzbd.Engine.Verdict
import Nzbd.Engine.DelayedPar
import Nzbd.Engine.Exhaustion
import Nzbd.Engine.ActiveSet
import Nzbd.Engine.ArticleAge
import Nzbd.Engine.Writer
import Nzbd.Engine.Dispatch
import Nzbd.Engine.Retries
import Nzbd.Engine.Sanitize
import Nzbd.Engine.NameJunk
import Nzbd.Engine.FileNames
import Nzbd.Cluster.Mutation
import Nzbd.Cluster.Revision
import Nzbd.Cluster.Unblock
import Nzbd.Cluster.Recovery
import Nzbd.Cluster.Ranges
import Nzbd.Cluster.Election
import Nzbd.History.Reflect
import Nzbd.Torrent.DiskHold
import Nzbd.Torrent.Identity
import Nzbd.Torrent.Payload
import Nzbd.Torrent.Admission
import Nzbd.Post.Finalize
import Nzbd.Post.Restart
import Nzbd.Post.Unpack
import Nzbd.Post.Numbering
import Nzbd.Par2.Scan
import Nzbd.Post.Attempts
import Nzbd.Post.Failed
import Nzbd.Post.QuickVerify
import Nzbd.Artifacts.Allocation
import Nzbd.Artifacts.Retention
import Nzbd.Torrent.Seeding
import Nzbd.Api.Settings
import Nzbd.Feed.Once
import Nzbd.Compat.Dupe
import Nzbd.Api.Gapless
import Nzbd.Compat.EditJob
import Nzbd.Compat.XmlRoundTrip
import Nzbd.Artifacts.HandoverRuns
import Nzbd.Engine.Volumes
import Nzbd.Torrent.Metainfo
import Nzbd.Engine.Replace
import Nzbd.Engine.Timeline
import Nzbd.Torrent.Geometry
import Nzbd.Torrent.Paths
import Nzbd.Feed.RoundTrip
