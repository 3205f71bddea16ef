import HomeCloud.Auth.Families
import HomeCloud.Auth.Logout
import HomeCloud.Client.ChunkRetry
import HomeCloud.Client.Digest
import HomeCloud.Client.TreeUpload
import HomeCloud.Client.QueueCancelled
import HomeCloud.Client.Session
import HomeCloud.Files.ArchiveMembers
import HomeCloud.Files.Capabilities
import HomeCloud.Files.Copying
import HomeCloud.Files.Deletion
import HomeCloud.Files.Forest
import HomeCloud.Files.Mirrors
import HomeCloud.Files.Names
import HomeCloud.Files.NumberedNames
import HomeCloud.Files.OneFile
import HomeCloud.Files.Ranges
import HomeCloud.Files.Usage
import HomeCloud.Operations.Alerts
import HomeCloud.Sharing.ArchiveSlot
import HomeCloud.Sharing.Downloads
import HomeCloud.Sharing.Lockout
import HomeCloud.Storage.MountTable
import HomeCloud.Storage.Placement
import HomeCloud.Storage.Reconciled
import HomeCloud.Uploads.ChunkManifest
import HomeCloud.Uploads.ChunkSizes
import HomeCloud.Uploads.Destination
import HomeCloud.Uploads.Expiry
import HomeCloud.Uploads.Genuine
import HomeCloud.Uploads.Limits
import HomeCloud.Uploads.PlainText
import HomeCloud.Uploads.Accounts
import HomeCloud.Uploads.Finalized
import HomeCloud.Uploads.Once
import HomeCloud.Uploads.Restarted
import HomeCloud.Uploads.TokenBucket
